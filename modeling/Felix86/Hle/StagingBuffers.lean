import Felix86.Hle.Pselect6
import Felix86.Hle.Socket32
import Felix86.Lib.Elements

/-!
# Temporaries of system calls

Some system calls copy structures of the guest through temporaries of the host: the events of the
`epoll` calls, the sets of `pselect6_time32`, the vectors of `writev`, and the vectors and the
control messages of `sendmsg32` and `recvmsg32`.

`epoll_wait` of both tables takes the number of events for a number of bytes. A set of
`pselect6_time32` has a fixed size, which the number of descriptors is not compared with. And
`sendmsg32` believes the lengths in the control messages. `staged_iff` says for which arguments each
of the calls stays in its temporaries and copies back what the host has reported.
-/

namespace Felix86

namespace StagingBuffers

open Buffer GuestTypes Socket32

/-! ## Layouts -/

def hostEpollEvent : Element EpollEvent :=
  Element.fields 4 8 8 EpollEvent.mk EpollEvent.events EpollEvent.data (fun _ ↦ rfl) rfl rfl
    (by decide)

/-- The structure of the guest is packed. -/
def x86EpollEvent : Element X86EpollEvent :=
  Element.fields 4 4 8 X86EpollEvent.mk X86EpollEvent.events X86EpollEvent.data
    (fun _ ↦ rfl) rfl rfl
    le_rfl

def hostIovec : Element Iovec :=
  Element.fields 8 8 8 Iovec.mk Iovec.iovBase Iovec.iovLen (fun _ ↦ rfl) rfl rfl le_rfl

def x86Iovec : Element X86Iovec :=
  Element.fields 4 4 4 X86Iovec.mk X86Iovec.iovBase X86Iovec.iovLen (fun _ ↦ rfl) rfl rfl le_rfl

/-! ## Events -/

/-- The handlers that wait for events. The first two are in both tables. -/
inductive EpollSyscall
  | epollPwait
  | epollPwait2
  | epollWait64
  | epollWait32
deriving DecidableEq, Repr

/-- `(int)arg3`. -/
def maxevents (arg3 : BitVec 64) : ℤ := (arg3.setWidth 32).toInt

/-- What is given to `alloca` for `host_events`. -/
def EpollSyscall.room : EpollSyscall → BitVec 64 → ℕ
  | epollPwait, arg3 => (max 0 (maxevents arg3)).toNat * hostEpollEvent.size
  | epollPwait2, arg3 => (max 0 (maxevents arg3)).toNat * hostEpollEvent.size
  | epollWait64, arg3 => (max 0 (maxevents arg3)).toNat
  | epollWait32, arg3 => (max 0 (maxevents arg3)).toNat

/-- What the host returns, and the events that it writes. -/
structure EpollReply (maxevents : ℤ) where
  result : ℤ
  events : List EpollEvent
  reported : 0 ≤ result → result = events.length ∧ (events.length : ℤ) ≤ maxevents
  failed : result < 0 → events = []

/-- A handler, with the memory of the guest after it. It fails if an event is written past the end
of `host_events`, which has been on the stack. -/
def epoll (s : EpollSyscall) (arg2 : ℕ) (arg3 : BitVec 64) (reply : EpollReply (maxevents arg3))
    (stack g : Buffer) : Option (ℤ × Buffer) := do
  let hostEvents ← hostEpollEvent.storeAll (s.room arg3) stack 0 reply.events
  if 0 ≤ reply.result then
    some (reply.result, hostEpollEvent.copyAll x86EpollEvent epollEvent.ofHost hostEvents 0 arg2
      reply.result.toNat g)
  else some (reply.result, g)

/-! ## Vectors -/

/-- The vectors of the guest, converted. -/
def hostIovecs (g : Buffer) (iov count : ℕ) : List Iovec :=
  (List.range count).map fun i ↦ iovec.toHost (x86Iovec.get g (iov + x86Iovec.size * i))

/-- `std::vector<iovec>`, made from the vectors of the guest. -/
def vector (g : Buffer) (iov count : ℕ) (heap : Buffer) : Option Buffer :=
  hostIovec.storeAll (count * hostIovec.size) heap 0 (hostIovecs g iov count)

/-! ## Control messages -/

/-- The places of the headers that the loop of `recvmsg32` goes through. -/
def visited (control : Buffer) (controllen : ℕ) : ℕ → Option ℕ → List ℕ
  | _, none => []
  | 0, some _ => []
  | rounds + 1, some o => o :: visited control controllen rounds (nxthdr control controllen o)

def places (r : Reply) : List ℕ :=
  visited r.control r.controllen (r.controllen + 1) (firsthdr r.controllen)

/-- A reply of the host: an error, or these messages. -/
structure RecvReply (h : Msghdr32) where
  reply : Reply
  msgs : List Message
  carries : reply.result ≠ -1 → Carries h reply msgs

/-- The lengths in the headers of the guest. One that is not the length of a message is the last. -/
def lens (g : Buffer) (stop : ℕ) : ℕ → ℕ → List ℕ
  | 0, _ => []
  | rounds + 1, p =>
    let len := g.number p 4
    if len < 12 then [len]
    else if align4 (p + len) < stop then len :: lens g stop rounds (align4 (p + len))
    else [len]

def Msghdr32.lens (h : Msghdr32) (g : Buffer) : List ℕ :=
  StagingBuffers.lens g (u32 (h.control + h.controllen)) (h.controllen + 1) h.control

/-- The messages of these lengths, the first of which is put at `o`: each one is in the temporary,
and `CMSG_NXTHDR` finds room for another header after all but the last. -/
def ControlFits (room : ℕ) : ℕ → ℕ → List ℕ → Prop
  | _, _, [] => True
  | o, controllen, len :: rest =>
    o + 16 ≤ room ∧ (len = 0 ∨ 12 ≤ len ∧ o + (len + 4) ≤ room) ∧
      (rest ≠ [] → o + align8 (len + 4) + 16 ≤ controllen + 4) ∧
        ControlFits room (o + align8 (len + 4)) (controllen + 4) rest

/-! ## All calls -/

/-- What the host writes to a set of so many descriptors. -/
def setBytes (nfds : ℤ) : ℕ := ((nfds + 63) / 64 * 8).toNat

/-- The calls, with what the host replies where the size of it is not fixed. -/
inductive Syscall
  | epoll (s : EpollSyscall) (arg2 : ℕ) (arg3 : BitVec 64) (reply : EpollReply (maxevents arg3))
  | pselect6Time32 (args : Pselect6.Args)
  | writev (iov count : ℕ)
  | sendmsg32 (h : Msghdr32)
  | recvmsg32 (h : Msghdr32) (reply : RecvReply h)

/-- The temporary of the vectors has room for them, and has them. -/
def VectorStaged (g memory : Buffer) (iov count : ℕ) : Prop :=
  vector g iov count memory = some (hostIovec.putAll memory 0 (hostIovecs g iov count))

/-- The bits of a set go to the one of the host and from there back to the guest. -/
def SetStaged (nfds : BitVec 32) (words : List (BitVec 32)) : Prop :=
  ∃ n, Pselect6.int (nfds.toInt + 31) = some n ∧ Pselect6.copyIn (n / 32 * 32) words ≠ none ∧
    setBytes (n / 32 * 32) ≤ Pselect6.fdSetSize / 8 ∧ ∀ host, ∃ words',
      Pselect6.copyOut (n / 32 * 32) host words = some words' ∧ words'.length = words.length ∧
        ∀ i : ℕ, Pselect6.isSet words' i =
          if (i : ℤ) < n / 32 * 32 then host.getLsbD i else Pselect6.isSet words i

/-- The control messages are in their temporary, and there is one round of the loop for each. -/
structure Received (g memory : Buffer) (h : Msghdr32) (r : Reply) (msgs : List Message) : Prop where
  inside : r.controllen ≤ room h
  vectors : hostIovec.copyAll x86Iovec iovec.ofHost
      (hostIovec.putAll memory 0 (hostIovecs g h.iov h.iovlen)) 0 h.iov h.iovlen g =
    x86Iovec.putAll g h.iov ((hostIovecs g h.iov h.iovlen).map iovec.ofHost)
  rounds : (places r).length = msgs.length
  copied : recvmsg32 g h r =
    some (((places r).foldlM (fun s o ↦ recvRound r.control o s) ⟨g, h.control, 0⟩).map
      fun s ↦ (s.guest, filled h r s.controllen))

/-- What is written is inside of the temporaries, and the guest gets as many elements as the call
reports. -/
def Staged (g memory : Buffer) : Syscall → Prop
  | .epoll s arg2 arg3 reply => StagingBuffers.epoll s arg2 arg3 reply memory g =
      some (reply.result, x86EpollEvent.putAll g arg2 (reply.events.map epollEvent.ofHost))
  | .pselect6Time32 args => ∀ k words, args.sets k = some words → SetStaged args.nfds words
  | .writev iov count => VectorStaged g memory iov count
  | .sendmsg32 h => VectorStaged g memory h.iov h.iovlen ∧
      ∃ sent, Socket32.sendmsg32 g h memory = some (.ok sent)
  | .recvmsg32 h r => VectorStaged g memory h.iov h.iovlen ∧
      if r.reply.result = -1 then Socket32.recvmsg32 g h r.reply = some (.ok (g, h))
      else Received g memory h r.reply r.msgs

/-- When it is so. -/
def Right (g : Buffer) : Syscall → Prop
  | .epoll .epollPwait _ _ _ => True
  | .epoll .epollPwait2 _ _ _ => True
  | .epoll .epollWait64 _ arg3 reply => 16 * (reply.events.length : ℤ) ≤ max 0 (maxevents arg3)
  | .epoll .epollWait32 _ arg3 reply => 16 * (reply.events.length : ℤ) ≤ max 0 (maxevents arg3)
  | .pselect6Time32 args => ∀ k words, args.sets k = some words → args.nfds.toInt ≤ 1024
  | .writev _ _ => True
  | .sendmsg32 h => h.controllen = 0 ∨ ControlFits (room h) 0 h.controllen (Msghdr32.lens h g)
  | .recvmsg32 _ _ => True

section

variable {g memory : Buffer}

theorem size_hostEpollEvent : hostEpollEvent.size = 16 := rfl

/-- A handler does its work if and only if the events are in its temporary. -/
theorem epoll_eq_iff (s : EpollSyscall) (arg2 : ℕ) (arg3 : BitVec 64)
    (reply : EpollReply (maxevents arg3)) :
    epoll s arg2 arg3 reply memory g =
        some (reply.result, x86EpollEvent.putAll g arg2 (reply.events.map epollEvent.ofHost)) ↔
      16 * reply.events.length ≤ s.room arg3 := by
  constructor
  · intro h
    obtain ⟨hostEvents, hstore, -⟩ := Option.bind_eq_some_iff.mp h
    have hle := Element.le_of_storeAll hstore (Nat.zero_le _)
    rwa [Nat.zero_add, size_hostEpollEvent] at hle
  · intro h
    have hstore : hostEpollEvent.storeAll (s.room arg3) memory 0 reply.events =
        some (hostEpollEvent.putAll memory 0 reply.events) :=
      Element.storeAll_eq_some (by rwa [Nat.zero_add, size_hostEpollEvent])
    rw [epoll, hstore, Option.bind_eq_bind, Option.bind_some]
    by_cases hresult : 0 ≤ reply.result
    · have hcount : reply.result.toNat = reply.events.length := by
        rw [(reply.reported hresult).1, Int.toNat_natCast]
      rw [if_pos hresult, hcount, Element.copyAll_eq _ _ fun i hi ↦ Element.get_putAll hi]
    · rw [if_neg hresult, reply.failed (lt_of_not_ge hresult)]
      rfl

theorem vectorStaged (iov count : ℕ) : VectorStaged g memory iov count := by
  refine Element.storeAll_eq_some ?_
  rw [hostIovecs, List.length_map, List.length_range, Nat.zero_add, Nat.mul_comm]

/-- As many events as were asked for are in a temporary with room for as many. -/
theorem events_le_room (arg3 : BitVec 64) (reply : EpollReply (maxevents arg3)) :
    16 * reply.events.length ≤ (max 0 (maxevents arg3)).toNat * hostEpollEvent.size := by
  rw [size_hostEpollEvent]
  by_cases hresult : 0 ≤ reply.result
  · have hle := (reply.reported hresult).2
    omega
  · rw [reply.failed (lt_of_not_ge hresult)]
    exact Nat.zero_le _

theorem staged_epoll_iff (s : EpollSyscall) (arg2 : ℕ) (arg3 : BitVec 64)
    (reply : EpollReply (maxevents arg3)) :
    Staged g memory (.epoll s arg2 arg3 reply) ↔ Right g (.epoll s arg2 arg3 reply) := by
  refine (epoll_eq_iff s arg2 arg3 reply).trans ?_
  cases s with
  | epollPwait => exact iff_of_true (events_le_room arg3 reply) trivial
  | epollPwait2 => exact iff_of_true (events_le_room arg3 reply) trivial
  | epollWait64 =>
    rw [EpollSyscall.room, Right]
    omega
  | epollWait32 =>
    rw [EpollSyscall.room, Right]
    omega

/-! ## Sets -/

open Pselect6 in
/-- A set that the host writes is in its temporary if it has a bit for each descriptor. -/
theorem setStaged_iff {args : Args} {k : Which} {words : List (BitVec 32)}
    (hk : args.sets k = some words) : SetStaged args.nfds words ↔ args.nfds.toInt ≤ 1024 := by
  have hroom := args.room k words hk
  rw [wholeWords] at hroom
  constructor
  · rintro ⟨n, hn, -, hbytes, -⟩
    rw [int] at hn
    split at hn
    · obtain rfl := Option.some_injective _ hn
      change _ ≤ 128 at hbytes
      rw [setBytes] at hbytes
      omega
    · cases hn
  · intro hle
    have hlow := BitVec.le_toInt args.nfds
    have hint : int (args.nfds.toInt + 31) = some (args.nfds.toInt + 31) :=
      int_of_range (by omega) (by omega)
    refine ⟨_, hint, ?_, ?_, fun host ↦ ?_⟩
    · obtain ⟨s, hs, -⟩ := copyIn_eq_some words
        (n := ((args.nfds.toInt + 31) / 32 * 32).toNat) (by omega) (by omega) (by omega)
      rw [copyIn_toNat, hs]
      exact Option.some_ne_none s
    · change _ ≤ 128
      rw [setBytes]
      omega
    · have hfits : ((args.nfds.toInt + 31) / 32 * 32).toNat ≤ fdSetSize := by
        change _ ≤ 1024
        omega
      obtain ⟨words', hcopy, hlength, hbits⟩ := copyOut_eq_some host hfits
        (show _ ≤ 32 * words.length by omega)
      refine ⟨words', (copyOut_toNat _ host).trans hcopy, hlength, fun i ↦ ?_⟩
      rw [hbits]
      exact if_congr Int.lt_toNat rfl rfl

end

/-! ## Sending -/

section

variable {g control control' : Buffer} {h : Msghdr32} {p o L : ℕ}

theorem number_lt (m : Buffer) (a n : ℕ) : m.number a n < 256 ^ n := by
  induction n generalizing a with
  | zero => exact Nat.one_pos
  | succ n ih =>
    have hrest := ih (a + 1)
    have hbyte := (m a).isLt
    rw [number, Buffer.read, Buffer.toNat, Nat.pow_succ]
    rw [number] at hrest
    omega

/-- A round that fails ends the loop. -/
theorem sendLoop_of_error {e : Crash} {s : SendState} {rounds : ℕ}
    (hround : sendRound g h s = .error e) :
    ¬ ∃ r, sendLoop g h (rounds + 1) s = some (.ok r) := by
  rintro ⟨r, hr⟩
  rw [sendLoop, hround] at hr
  cases hr

/-- The headers that are written, and what becomes of the rest of the round. -/
theorem sendRound_eq (control : Buffer) (hroom : o + 16 ≤ room h) : ∃ control₁,
    sendRound g h ⟨p, some o, control, L⟩ =
      (sendPayload g h p o (g.number p 4) control₁ L).bind fun r ↦
        if g.number p 4 < 12 then .ok (⟨p, nxthdr r.1 r.2 o, r.1, r.2⟩, false)
        else .ok (⟨align4 (p + g.number p 4), nxthdr r.1 r.2 o, r.1, r.2⟩,
          decide (align4 (p + g.number p 4) < u32 (h.control + h.controllen))) := by
  have hno : ¬ room h < o + 16 := not_lt.mpr hroom
  refine ⟨(control.write (o + 8) (g.read (p + 4) 4)).write (o + 12) (g.read (p + 8) 4), ?_⟩
  simp only [sendRound, hno, if_false]
  rfl

/-- What `CMSG_NXTHDR` says after a payload. -/
theorem sendPayload_eq (hlen : 12 ≤ g.number p 4) (hroom : o + (g.number p 4 + 4) ≤ room h)
    (control : Buffer) :
    ∃ control', sendPayload g h p o (g.number p 4) control L = .ok (control', L + 4) ∧
      nxthdr control' (L + 4) o = if L + 4 < o + align8 (g.number p 4 + 4) + 16 then none
        else some (o + align8 (g.number p 4 + 4)) := by
  have hlt := number_lt g p 4
  rw [sendPayload, if_neg (by omega), if_neg (by omega), if_neg (by omega)]
  refine ⟨_, rfl, ?_⟩
  have hnumber : ((control.write o (ofNat 8 (g.number p 4 + 4))).write (o + 16)
      (g.read (p + 12) (g.number p 4 - 12))).number o 8 = g.number p 4 + 4 := by
    refine number_of_read ?_ (by omega)
    rw [read_write_of_disjoint (.inl (by omega)), read_write_ofNat]
  rw [nxthdr, hnumber]
  exact if_congr (or_iff_right (by omega)) rfl rfl

/-- There is no round without a place for the header. -/
theorem sendLoop_null {rounds : ℕ} :
    ¬ ∃ r, sendLoop g h rounds ⟨p, none, control, L⟩ = some (.ok r) := by
  rintro ⟨r, hr⟩
  obtain _ | rounds := rounds
  · cases hr
  · exact sendLoop_of_error (e := .null) rfl ⟨r, hr⟩

/-- One round: the next one is at a place in the temporary. -/
theorem sendLoop_succ_iff (control : Buffer) (rounds : ℕ) : ∃ control',
    ((∃ r, sendLoop g h (rounds + 1) ⟨p, some o, control, L⟩ = some (.ok r)) ↔
      o + 16 ≤ room h ∧ (g.number p 4 = 0 ∨ 12 ≤ g.number p 4 ∧ o + (g.number p 4 + 4) ≤ room h) ∧
        (12 ≤ g.number p 4 → align4 (p + g.number p 4) < u32 (h.control + h.controllen) →
          o + align8 (g.number p 4 + 4) + 16 ≤ L + 4 ∧ ∃ r,
            sendLoop g h rounds ⟨align4 (p + g.number p 4), some (o + align8 (g.number p 4 + 4)),
              control', L + 4⟩ = some (.ok r))) := by
  by_cases hroom : o + 16 ≤ room h
  swap
  · have hover : sendRound g h ⟨p, some o, control, L⟩ = .error .overrun := by
      simp only [sendRound, lt_of_not_ge hroom, if_true]
      rfl
    exact ⟨control, iff_of_false (sendLoop_of_error hover) fun hright ↦ hroom hright.1⟩
  obtain ⟨control₁, hround⟩ := sendRound_eq (g := g) (p := p) (L := L) control hroom
  rcases Nat.lt_or_ge (g.number p 4) 12 with hlen | hlen
  · -- the last round
    rcases Nat.eq_zero_or_pos (g.number p 4) with hzero | hpos
    · rw [hzero, sendPayload, if_pos rfl] at hround
      refine ⟨control, iff_of_true ⟨(control₁, L), ?_⟩
        ⟨hroom, .inl hzero, fun hge ↦ absurd hge (by omega)⟩⟩
      rw [sendLoop, hround]
      rfl
    · rw [sendPayload, if_neg (by omega), if_pos hlen] at hround
      exact ⟨control, iff_of_false (sendLoop_of_error hround) fun hright ↦ by omega⟩
  · by_cases hpay : o + (g.number p 4 + 4) ≤ room h
    swap
    · rw [sendPayload, if_neg (by omega), if_neg (by omega), if_pos (by omega)] at hround
      exact ⟨control, iff_of_false (sendLoop_of_error hround) fun hright ↦ by omega⟩
    obtain ⟨control', hcontrol, hnext⟩ := sendPayload_eq (L := L) hlen hpay control₁
    rw [hcontrol, Except.bind, if_neg (not_lt.mpr hlen), hnext] at hround
    refine ⟨control', ?_⟩
    rw [sendLoop, hround]
    by_cases hstop : align4 (p + g.number p 4) < u32 (h.control + h.controllen)
    · rw [decide_eq_true hstop]
      have hgoes : o + 16 ≤ room h ∧ (g.number p 4 = 0 ∨ 12 ≤ g.number p 4 ∧
        o + (g.number p 4 + 4) ≤ room h) := ⟨hroom, .inr ⟨hlen, hpay⟩⟩
      by_cases hplace : o + align8 (g.number p 4 + 4) + 16 ≤ L + 4
      · rw [if_neg (not_lt.mpr hplace)]
        exact ⟨fun hr ↦ ⟨hgoes.1, hgoes.2, fun _ _ ↦ ⟨hplace, hr⟩⟩,
          fun hright ↦ (hright.2.2 hlen hstop).2⟩
      · rw [if_pos (lt_of_not_ge hplace)]
        exact iff_of_false sendLoop_null fun hright ↦ hplace (hright.2.2 hlen hstop).1
    · rw [decide_eq_false hstop]
      exact iff_of_true ⟨_, rfl⟩
        ⟨hroom, .inr ⟨hlen, hpay⟩, fun _ hgoes ↦ absurd hgoes hstop⟩

theorem lens_ne_nil {stop rounds : ℕ} : lens g stop (rounds + 1) p ≠ [] := by
  rw [lens]
  split
  · exact List.cons_ne_nil _ _
  · split
    · exact List.cons_ne_nil _ _
    · exact List.cons_ne_nil _ _

/-- The first of the messages, and the others if there are any. -/
theorem controlFits_lens_iff {room stop rounds : ℕ}
    (hrest : 12 ≤ g.number p 4 → align4 (p + g.number p 4) < stop →
      lens g stop rounds (align4 (p + g.number p 4)) ≠ []) :
    ControlFits room o L (lens g stop (rounds + 1) p) ↔
      o + 16 ≤ room ∧ (g.number p 4 = 0 ∨ 12 ≤ g.number p 4 ∧ o + (g.number p 4 + 4) ≤ room) ∧
        (12 ≤ g.number p 4 → align4 (p + g.number p 4) < stop →
          o + align8 (g.number p 4 + 4) + 16 ≤ L + 4 ∧
            ControlFits room (o + align8 (g.number p 4 + 4)) (L + 4)
              (lens g stop rounds (align4 (p + g.number p 4)))) := by
  rw [lens]
  by_cases hlen : g.number p 4 < 12
  · rw [if_pos hlen]
    exact ⟨fun hfits ↦ ⟨hfits.1, hfits.2.1, fun hge _ ↦ absurd hge (not_le.mpr hlen)⟩,
      fun hright ↦ ⟨hright.1, hright.2.1, fun hne ↦ absurd rfl hne, trivial⟩⟩
  rw [if_neg hlen]
  by_cases hlt : align4 (p + g.number p 4) < stop
  · rw [if_pos hlt]
    exact ⟨fun hfits ↦ ⟨hfits.1, hfits.2.1, fun _ _ ↦ ⟨hfits.2.2.1 (hrest (not_lt.mp hlen) hlt),
      hfits.2.2.2⟩⟩, fun hright ↦ ⟨hright.1, hright.2.1,
        fun _ ↦ (hright.2.2 (not_lt.mp hlen) hlt).1, (hright.2.2 (not_lt.mp hlen) hlt).2⟩⟩
  · rw [if_neg hlt]
    exact ⟨fun hfits ↦ ⟨hfits.1, hfits.2.1, fun _ hgoes ↦ absurd hgoes hlt⟩,
      fun hright ↦ ⟨hright.1, hright.2.1, fun hne ↦ absurd rfl hne, trivial⟩⟩

/-- The loop gets to its end if and only if the messages fit. The rounds are enough because each
message that has another after it is at a lower address. -/
theorem sendLoop_iff (control : Buffer) {rounds : ℕ}
    (hrounds : u32 (h.control + h.controllen) - p ≤ rounds) :
    (∃ r, sendLoop g h (rounds + 1) ⟨p, some o, control, L⟩ = some (.ok r)) ↔
      ControlFits (room h) o L (lens g (u32 (h.control + h.controllen)) (rounds + 1) p) := by
  induction rounds generalizing p o control L with
  | zero =>
    obtain ⟨control', hstep⟩ := sendLoop_succ_iff (p := p) control 0
    have hend : 12 ≤ g.number p 4 →
        ¬ align4 (p + g.number p 4) < u32 (h.control + h.controllen) := by
      rw [align4]
      omega
    rw [hstep, controlFits_lens_iff fun hge hlt ↦ absurd hlt (hend hge)]
    exact and_congr_right fun _ ↦ and_congr_right fun _ ↦ forall₂_congr fun hge hlt ↦
      absurd hlt (hend hge)
  | succ rounds ih =>
    obtain ⟨control', hstep⟩ := sendLoop_succ_iff (p := p) control (rounds + 1)
    rw [hstep, controlFits_lens_iff fun _ _ ↦ lens_ne_nil]
    refine and_congr_right fun _ ↦ and_congr_right fun _ ↦ forall₂_congr fun hge _ ↦
      and_congr_right fun _ ↦ ih control' ?_
    rw [align4]
    omega

theorem sent_iff (garbage : Buffer) : (∃ sent, sendmsg32 g h garbage = some (.ok sent)) ↔
    h.controllen = 0 ∨ ControlFits (room h) 0 h.controllen (Msghdr32.lens h g) := by
  rw [sendmsg32]
  by_cases hzero : h.controllen = 0
  · rw [if_pos hzero]
    exact iff_of_true ⟨_, rfl⟩ (.inl hzero)
  have hstop : u32 (h.control + h.controllen) - h.control ≤ h.controllen := by
    have hle : u32 (h.control + h.controllen) ≤ h.control + h.controllen := Nat.mod_le _ _
    omega
  rw [if_neg hzero, or_iff_right hzero, Msghdr32.lens, ← sendLoop_iff garbage hstop]
  constructor
  · rintro ⟨sent, hsent⟩
    obtain ⟨r, hr, hmap⟩ := Option.map_eq_some_iff.mp hsent
    obtain e | r := r
    · cases hmap
    · exact ⟨r, hr⟩
  · rintro ⟨r, hr⟩
    rw [hr]
    exact ⟨_, rfl⟩

end

/-! ## Receiving -/

section

variable {g control memory : Buffer} {h : Msghdr32} {o C : ℕ} {msgs : List Message} {r : Reply}

/-- The loop has a round for each place. -/
theorem recvLoop_eq {rounds : ℕ} {place : Option ℕ} {s : RecvState}
    (hne : recvLoop control C rounds place s ≠ none) : recvLoop control C rounds place s =
      some ((visited control C rounds place).foldlM (fun s o ↦ recvRound control o s) s) := by
  induction rounds generalizing place s with
  | zero =>
    obtain _ | o := place
    · rfl
    · exact absurd rfl hne
  | succ rounds ih =>
    obtain _ | o := place
    · rfl
    rw [visited, List.foldlM_cons]
    rw [recvLoop] at hne
    rw [recvLoop]
    cases hround : recvRound control o s with
    | error e => rfl
    | ok s' =>
      rw [hround] at hne
      dsimp only at hne ⊢
      rw [ih hne, show (Except.ok s' : Except Crash RecvState) = pure s' from rfl, pure_bind]

/-- There is a place for each message that the host has put in its buffer. -/
theorem length_visited {rounds : ℕ} (hne : msgs ≠ []) (hholds : Holds64 control o msgs)
    (hsize : o + size64 msgs ≤ C) (hspace : C ≤ o + space64 msgs) (hC : C < 2 ^ 32)
    (hrounds : msgs.length ≤ rounds) :
    (visited control C rounds (some o)).length = msgs.length := by
  induction msgs generalizing o rounds with
  | nil => exact absurd rfl hne
  | cons msg rest ih =>
    obtain _ | rounds := rounds
    · exact absurd hrounds (Nat.not_succ_le_zero _)
    have hlen : msg.len64 < 2 ^ 64 := by
      have hle : msg.len64 ≤ size64 (msg :: rest) := len64_le_size64
      omega
    rw [visited, List.length_cons, List.length_cons, nxthdr_of_read hholds.1 hlen C]
    rw [space64] at hspace
    by_cases hrest : rest = []
    · subst hrest
      rw [space64] at hspace
      rw [if_pos (by omega)]
      cases rounds with
      | zero => rfl
      | succ rounds => rfl
    · have hpos := sixteen_le_size64 hrest
      rw [size64_cons hrest] at hsize
      rw [if_neg (by omega), ih hrest hholds.2 (by omega) (by omega)
        (Nat.le_of_succ_le_succ hrounds)]

theorem length_places (hcarries : Carries h r msgs) : (places r).length = msgs.length := by
  have hsize := hcarries.size
  have hspace := hcarries.space
  rw [places, firsthdr]
  by_cases hne : msgs = []
  · subst hne
    rw [space64] at hspace
    rw [if_pos (by omega)]
    rfl
  have hpos := sixteen_le_size64 hne
  have hlength := length_le_size64 msgs
  rw [if_neg (by omega)]
  exact length_visited hne hcarries.holds (by omega) (by omega) hcarries.controllen_lt (by omega)

theorem received (hcarries : Carries h r msgs) : Received g memory h r msgs where
  inside := hcarries.fits
  vectors := by
    have hlength : (hostIovecs g h.iov h.iovlen).length = h.iovlen := by
      rw [hostIovecs, List.length_map, List.length_range]
    have hsource (i : ℕ) (hi : i < (hostIovecs g h.iov h.iovlen).length) :
        hostIovec.get (hostIovec.putAll memory 0 (hostIovecs g h.iov h.iovlen))
          (0 + hostIovec.size * i) = (hostIovecs g h.iov h.iovlen)[i] := Element.get_putAll hi
    have hcopy := Element.copyAll_eq (p := h.iov) (m := g) x86Iovec iovec.ofHost hsource
    rwa [hlength] at hcopy
  rounds := length_places hcarries
  copied := by
    have hne := recvmsg32_ne_none g h r
    rw [recvmsg32, if_neg hcarries.ok] at hne ⊢
    rw [recvLoop_eq fun hnone ↦ hne (by rw [hnone]; rfl)]
    rfl

/-- The calls stay in their temporaries if and only if `epoll_wait` reports no more events than a
sixteenth of those that it was asked for, `pselect6_time32` is not asked for more descriptors than
the sets have room for, and the control messages for `sendmsg32` fit. -/
theorem staged_iff (g memory : Buffer) (c : Syscall) : Staged g memory c ↔ Right g c := by
  cases c with
  | epoll s arg2 arg3 reply => exact staged_epoll_iff s arg2 arg3 reply
  | pselect6Time32 args =>
    exact forall₃_congr fun k words hk ↦ setStaged_iff hk
  | writev iov count => exact iff_of_true (vectorStaged iov count) trivial
  | sendmsg32 h => exact (and_iff_right (vectorStaged h.iov h.iovlen)).trans (sent_iff memory)
  | recvmsg32 h r =>
    refine iff_of_true ⟨vectorStaged h.iov h.iovlen, ?_⟩ trivial
    split
    · next hfailed => rw [Socket32.recvmsg32, if_pos hfailed]
    · next hok => exact received (r.carries hok)

/-- One event, when one is asked for. -/
def oneEvent (event : EpollEvent) : EpollReply (maxevents 1) where
  result := 1
  events := [event]
  reported _ := ⟨rfl, show (1 : ℤ) ≤ maxevents 1 by decide⟩
  failed h := absurd h (by decide)

/-- `epoll_wait` is asked for one event, and writes 16 bytes to a temporary of one. -/
theorem not_staged :
    ¬ Staged (fun _ ↦ 0) (fun _ ↦ 0) (.epoll .epollWait64 0x1000 1 (oneEvent ⟨1, 5⟩)) ∧
    ¬ Staged (fun _ ↦ 0) (fun _ ↦ 0) (.epoll .epollWait32 0x1000 1 (oneEvent ⟨1, 5⟩)) := by
  constructor
  · intro h
    exact absurd ((epoll_eq_iff _ _ _ _).mp h) (by decide)
  · intro h
    exact absurd ((epoll_eq_iff _ _ _ _).mp h) (by decide)

end

end StagingBuffers

end Felix86
