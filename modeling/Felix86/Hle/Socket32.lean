import Felix86.Common.Freelist
import Felix86.Lib.Bytes

/-!
# Control messages of 32-bit sockets

`sendmsg32` and `recvmsg32` copy the control messages of a 32-bit guest to and from the layout of
the host. The header of a message is 12 bytes in one and 16 in the other, and a message starts at a
multiple of 4 in one and of 8 in the other. Neither function takes the second difference into
account. `sendmsg32` adds the difference of the headers to the length of the buffer and nothing for
the padding, so the macro that finds the place of the next message finds none, and the null pointer
is written to. `recvmsg32` gives the kernel a buffer of twice the size of the guest's and copies
what it gets without looking at the size, and adds up the lengths of the messages without their
padding.

A message list is given with its layout: `Layout32` and `Layout64` say that a buffer of a length
holds it, with the last message padded or not. The kernel reads a control buffer with `walk`.
-/

namespace Felix86

namespace Socket32

open Buffer

/-! ## Messages -/

/-- `cmsg_level`, `cmsg_type` and the payload. -/
structure Message where
  level : BitVec 32
  type : BitVec 32
  data : List (BitVec 8)
deriving DecidableEq, Repr

def align4 (n : ℕ) : ℕ := (n + 3) / 4 * 4

/-- `CMSG_ALIGN` of the host. -/
def align8 (n : ℕ) : ℕ := (n + 7) / 8 * 8

namespace Message

variable (msg : Message)

/-- `cmsg_len` of the guest: `sizeof(x86_cmsghdr)` is 12. -/
def len32 : ℕ := 12 + msg.data.length

/-- `cmsg_len` of the host: `sizeof(cmsghdr)` is 16. -/
def len64 : ℕ := 16 + msg.data.length

def encode32 : List (BitVec 8) :=
  ofNat 4 msg.len32 ++ (ofNat 4 msg.level.toNat ++ (ofNat 4 msg.type.toNat ++ msg.data))

def encode64 : List (BitVec 8) :=
  ofNat 8 msg.len64 ++ (ofNat 4 msg.level.toNat ++ (ofNat 4 msg.type.toNat ++ msg.data))

end Message

/-- The size of a list, its last message not padded. -/
def size32 : List Message → ℕ
  | [] => 0
  | [msg] => msg.len32
  | msg :: rest => align4 msg.len32 + size32 rest

/-- The size of a list, its last message padded. -/
def space32 : List Message → ℕ
  | [] => 0
  | msg :: rest => align4 msg.len32 + space32 rest

def size64 : List Message → ℕ
  | [] => 0
  | [msg] => msg.len64
  | msg :: rest => align8 msg.len64 + size64 rest

def space64 : List Message → ℕ
  | [] => 0
  | msg :: rest => align8 msg.len64 + space64 rest

/-- The messages are in the buffer, one after the other. -/
def Holds32 (m : Buffer) : ℕ → List Message → Prop
  | _, [] => True
  | a, msg :: rest => m.read a msg.len32 = msg.encode32 ∧ Holds32 m (a + align4 msg.len32) rest

def Holds64 (m : Buffer) : ℕ → List Message → Prop
  | _, [] => True
  | a, msg :: rest => m.read a msg.len64 = msg.encode64 ∧ Holds64 m (a + align8 msg.len64) rest

/-- A buffer with these messages and nothing else, at an address where a header can stand. -/
structure Layout32 (m : Buffer) (a len : ℕ) (msgs : List Message) : Prop where
  aligned : 4 ∣ a
  holds : Holds32 m a msgs
  size : size32 msgs ≤ len
  space : len ≤ space32 msgs

structure Layout64 (m : Buffer) (a len : ℕ) (msgs : List Message) : Prop where
  holds : Holds64 m a msgs
  size : size64 msgs ≤ len
  space : len ≤ space64 msgs

/-! ## The code -/

/-- `x86_msghdr`. -/
structure Msghdr32 where
  name : ℕ
  namelen : ℕ
  iov : ℕ
  iovlen : ℕ
  control : ℕ
  controllen : ℕ
  flags : ℕ
deriving DecidableEq, Repr

/-- `msghdr`, with its vectors and its control buffer. -/
structure Msghdr64 where
  name : ℕ
  namelen : ℕ
  iov : List (ℕ × ℕ)
  control : Buffer
  controllen : ℕ
  flags : ℕ

/-- How the functions can go wrong: a null pointer is written to, a copy is of nearly `2 ^ 64`
bytes, or it is past the end of the buffer from `alloca`. -/
inductive Crash
  | null
  | copy
  | overrun
deriving DecidableEq, Repr

/-- The size of the buffer from `alloca`. -/
def room (h : Msghdr32) : ℕ := u32 (h.controllen * 2)

/-- The vectors of the guest: a base and a length each. -/
def iovecs (g : Buffer) (iov : ℕ) : ℕ → List (ℕ × ℕ)
  | 0 => []
  | n + 1 => (g.number iov 4, g.number (iov + 4) 4) :: iovecs g (iov + 8) n

/-- `CMSG_NXTHDR`: the place after the message, if it has room for a header. -/
def nxthdr (control : Buffer) (controllen o : ℕ) : Option ℕ :=
  if control.number o 8 < 16 ∨ controllen < o + align8 (control.number o 8) + 16 then none
  else some (o + align8 (control.number o 8))

/-- The variables of the loop of `sendmsg32`: `guest_cmsghdr_pointer`, `host_cmsghdr_pointer` as an
offset, and the control buffer of `host_msghdr` with its length. -/
structure SendState where
  guestPtr : ℕ
  hostPtr : Option ℕ
  control : Buffer
  controllen : ℕ

/-- The body of the `if` of a round: the length and the payload of a message. -/
def sendPayload (g : Buffer) (h : Msghdr32) (guestPtr o len : ℕ) (control : Buffer)
    (controllen : ℕ) : Except Crash (Buffer × ℕ) :=
  if len = 0 then .ok (control, controllen)
  else if len < 12 then .error .copy
  else if room h < o + 16 + (len - 12) then .error .overrun
  else .ok ((control.write o (ofNat 8 (len + 4))).write (o + 16)
    (g.read (guestPtr + 12) (len - 12)), controllen + 4)

/-- One round of the loop, and whether there is another one. -/
def sendRound (g : Buffer) (h : Msghdr32) (s : SendState) : Except Crash (SendState × Bool) :=
  match s.hostPtr with
  | none => .error .null
  | some o => do
    let len := g.number s.guestPtr 4
    if room h < o + 16 then .error .overrun
    let control := s.control.write (o + 8) (g.read (s.guestPtr + 4) 4)
    let control := control.write (o + 12) (g.read (s.guestPtr + 8) 4)
    let (control, controllen) ← sendPayload g h s.guestPtr o len control s.controllen
    let hostPtr := nxthdr control controllen o
    if len < 12 then return (⟨s.guestPtr, hostPtr, control, controllen⟩, false)
    let guestPtr := align4 (s.guestPtr + len)
    return (⟨guestPtr, hostPtr, control, controllen⟩,
      decide (guestPtr < u32 (h.control + h.controllen)))

/-- The loop. Its result is missing if the rounds do not suffice. -/
def sendLoop (g : Buffer) (h : Msghdr32) : ℕ → SendState → Option (Except Crash (Buffer × ℕ))
  | 0, _ => none
  | rounds + 1, s =>
    match sendRound g h s with
    | .error e => some (.error e)
    | .ok (s, true) => sendLoop g h rounds s
    | .ok (s, false) => some (.ok (s.control, s.controllen))

/-- What `sendmsg32` passes to the kernel, from what is in the buffer it gets. -/
def sendmsg32 (g : Buffer) (h : Msghdr32) (garbage : Buffer) : Option (Except Crash Msghdr64) :=
  let host : Msghdr64 :=
    ⟨h.name, h.namelen, iovecs g h.iov h.iovlen, garbage, h.controllen, h.flags⟩
  if h.controllen = 0 then some (.ok host)
  else
    (sendLoop g h (h.controllen + 1) ⟨h.control, some 0, garbage, h.controllen⟩).map fun r ↦
      r.map fun (control, controllen) ↦ { host with control := control, controllen := controllen }

/-- The variables of the loop of `recvmsg32`: the memory of the guest, `guest_cmsghdr_pointer`, and
`msg_controllen`. -/
structure RecvState where
  guest : Buffer
  guestPtr : ℕ
  controllen : ℕ

/-- One round of the loop. -/
def recvRound (control : Buffer) (o : ℕ) (s : RecvState) : Except Crash RecvState :=
  let len := control.number o 8
  let guest := s.guest.write (s.guestPtr + 4) (control.read (o + 8) 4)
  let guest := guest.write (s.guestPtr + 8) (control.read (o + 12) 4)
  if len = 0 then .ok { s with guest := guest }
  else
    let len32 := u32 (u64 (len + (2 ^ 64 - 4)))
    let guest := guest.write s.guestPtr (ofNat 4 len32)
    if len < 16 then .error .copy
    else .ok ⟨guest.write (s.guestPtr + 12) (control.read (o + 16) (len - 16)),
      align4 (s.guestPtr + len32), u32 (s.controllen + len32)⟩

def recvLoop (control : Buffer) (controllen : ℕ) :
    ℕ → Option ℕ → RecvState → Option (Except Crash RecvState)
  | _, none, s => some (.ok s)
  | 0, some _, _ => none
  | rounds + 1, some o, s =>
    match recvRound control o s with
    | .error e => some (.error e)
    | .ok s => recvLoop control controllen rounds (nxthdr control controllen o) s

/-- What the kernel returns from `recvmsg`: `-1`, or a result and what it has filled in. -/
structure Reply where
  result : ℤ
  namelen : ℕ
  control : Buffer
  controllen : ℕ
  flags : ℕ

/-- `CMSG_FIRSTHDR`. -/
def firsthdr (controllen : ℕ) : Option ℕ := if controllen < 16 then none else some 0

/-- The header of the guest after the call. -/
def filled (h : Msghdr32) (r : Reply) (controllen : ℕ) : Msghdr32 :=
  { h with namelen := r.namelen, controllen := controllen, flags := r.flags }

/-- `recvmsg32`: the memory and the header of the guest after it. The vectors are copied there and
back as they are. -/
def recvmsg32 (g : Buffer) (h : Msghdr32) (r : Reply) : Option (Except Crash (Buffer × Msghdr32)) :=
  if r.result = -1 then some (.ok (g, h))
  else
    (recvLoop r.control r.controllen (r.controllen + 1) (firsthdr r.controllen)
      ⟨g, h.control, 0⟩).map fun s ↦ s.map fun s ↦ (s.guest, filled h r s.controllen)

/-! ## The kernel -/

/-- The messages in a control buffer. A length that is not one of a message in the buffer is an
error. -/
def walk (control : Buffer) (controllen : ℕ) : ℕ → ℕ → Option (List Message)
  | 0, _ => none
  | rounds + 1, o =>
    if controllen < o + 16 then some []
    else
      let len := control.number o 8
      if len < 16 ∨ controllen < o + len then none
      else do
        let rest ← walk control controllen rounds (o + align8 len)
        return ⟨BitVec.ofNat 32 (control.number (o + 8) 4),
          BitVec.ofNat 32 (control.number (o + 12) 4), control.read (o + 16) (len - 16)⟩ :: rest

/-- What the kernel takes from a control buffer. -/
def kernelMessages (control : Buffer) (controllen : ℕ) : Option (List Message) :=
  walk control controllen (controllen + 1) 0

/-! ## Messages in place -/

section InPlace

variable {m m' : Buffer} {a o : ℕ} {msg : Message} {msgs rest : List Message}

theorem read_encode32_iff : m.read a msg.len32 = msg.encode32 ↔
    m.read a 4 = ofNat 4 msg.len32 ∧ m.read (a + 4) 4 = ofNat 4 msg.level.toNat ∧
      m.read (a + 8) 4 = ofNat 4 msg.type.toNat ∧
        m.read (a + 12) msg.data.length = msg.data := by
  have hlen : msg.len32 = 4 + (4 + (4 + msg.data.length)) := by
    rw [Message.len32]
    omega
  rw [Message.encode32]
  nth_rewrite 1 [hlen]
  rw [read_append_iff (length_ofNat _ _), read_append_iff (length_ofNat _ _),
    read_append_iff (length_ofNat _ _)]

theorem read_encode64_iff : m.read a msg.len64 = msg.encode64 ↔
    m.read a 8 = ofNat 8 msg.len64 ∧ m.read (a + 8) 4 = ofNat 4 msg.level.toNat ∧
      m.read (a + 12) 4 = ofNat 4 msg.type.toNat ∧
        m.read (a + 16) msg.data.length = msg.data := by
  have hlen : msg.len64 = 8 + (4 + (4 + msg.data.length)) := by
    rw [Message.len64]
    omega
  rw [Message.encode64]
  nth_rewrite 1 [hlen]
  rw [read_append_iff (length_ofNat _ _), read_append_iff (length_ofNat _ _),
    read_append_iff (length_ofNat _ _)]

/-- The writes that `recvmsg32` does for a message. -/
def place32 (m : Buffer) (a : ℕ) (msg : Message) : Buffer :=
  (((m.write (a + 4) (ofNat 4 msg.level.toNat)).write (a + 8) (ofNat 4 msg.type.toNat)).write a
    (ofNat 4 msg.len32)).write (a + 12) msg.data

/-- The writes that `sendmsg32` does for a message. -/
def place64 (m : Buffer) (a : ℕ) (msg : Message) : Buffer :=
  (((m.write (a + 8) (ofNat 4 msg.level.toNat)).write (a + 12) (ofNat 4 msg.type.toNat)).write a
    (ofNat 8 msg.len64)).write (a + 16) msg.data

/-- What is written at an address is there until something is written over it. -/
theorem read_write_ofNat (n v : ℕ) : (m.write a (ofNat n v)).read a n = ofNat n v := by
  have h := read_write m a (ofNat n v)
  rwa [length_ofNat] at h

theorem read_place32 (m : Buffer) (a : ℕ) (msg : Message) :
    (place32 m a msg).read a msg.len32 = msg.encode32 := by
  refine read_encode32_iff.mpr ⟨?_, ?_, ?_, read_write _ _ _⟩
  · rw [place32, read_write_of_disjoint (by omega), read_write_ofNat]
  · rw [place32, read_write_of_disjoint (by omega),
      read_write_of_disjoint (by rw [length_ofNat]; omega), read_write_of_disjoint (by omega),
      read_write_ofNat]
  · rw [place32, read_write_of_disjoint (by omega),
      read_write_of_disjoint (by rw [length_ofNat]; omega), read_write_ofNat]

theorem read_place64 (m : Buffer) (a : ℕ) (msg : Message) :
    (place64 m a msg).read a msg.len64 = msg.encode64 := by
  refine read_encode64_iff.mpr ⟨?_, ?_, ?_, read_write _ _ _⟩
  · rw [place64, read_write_of_disjoint (by omega), read_write_ofNat]
  · rw [place64, read_write_of_disjoint (by omega),
      read_write_of_disjoint (by rw [length_ofNat]; omega), read_write_of_disjoint (by omega),
      read_write_ofNat]
  · rw [place64, read_write_of_disjoint (by omega),
      read_write_of_disjoint (by rw [length_ofNat]; omega), read_write_ofNat]

/-- The writes for a message stay inside its place. -/
theorem place32_apply {x : ℕ} (h : x < a ∨ a + msg.len32 ≤ x) : place32 m a msg x = m x := by
  rw [Message.len32] at h
  obtain h | h := h
  · rw [place32, write_of_lt (by omega), write_of_lt h, write_of_lt (by omega),
      write_of_lt (by omega)]
  · rw [place32, write_of_ge (by omega), write_of_ge (by rw [length_ofNat]; omega),
      write_of_ge (by rw [length_ofNat]; omega), write_of_ge (by rw [length_ofNat]; omega)]

theorem place64_apply {x : ℕ} (h : x < a) : place64 m a msg x = m x := by
  rw [place64, write_of_lt (by omega), write_of_lt h, write_of_lt (by omega),
    write_of_lt (by omega)]

end InPlace

/-! ## Sizes -/

section Sizes

variable {msg : Message} {rest msgs : List Message}

theorem size32_cons (h : rest ≠ []) : size32 (msg :: rest) = align4 msg.len32 + size32 rest := by
  obtain ⟨next, rest, rfl⟩ := List.exists_cons_of_ne_nil h
  rfl

theorem size64_cons (h : rest ≠ []) : size64 (msg :: rest) = align8 msg.len64 + size64 rest := by
  obtain ⟨next, rest, rfl⟩ := List.exists_cons_of_ne_nil h
  rfl

theorem twelve_le_size32 (h : msgs ≠ []) : 12 ≤ size32 msgs := by
  obtain ⟨msg, rest, rfl⟩ := List.exists_cons_of_ne_nil h
  by_cases hrest : rest = []
  · rw [hrest, size32, Message.len32]
    omega
  · rw [size32_cons hrest, align4, Message.len32]
    omega

theorem sixteen_le_size64 (h : msgs ≠ []) : 16 ≤ size64 msgs := by
  obtain ⟨msg, rest, rfl⟩ := List.exists_cons_of_ne_nil h
  by_cases hrest : rest = []
  · rw [hrest, size64, Message.len64]
    omega
  · rw [size64_cons hrest, align8, Message.len64]
    omega

theorem len32_le_size32 : msg.len32 ≤ size32 (msg :: rest) := by
  by_cases hrest : rest = []
  · rw [hrest, size32]
  · rw [size32_cons hrest, align4]
    omega

theorem len64_le_size64 : msg.len64 ≤ size64 (msg :: rest) := by
  by_cases hrest : rest = []
  · rw [hrest, size64]
  · rw [size64_cons hrest, align8]
    omega

theorem size32_le_space32 (msgs : List Message) : size32 msgs ≤ space32 msgs := by
  induction msgs with
  | nil => exact le_rfl
  | cons msg rest ih =>
    by_cases hrest : rest = []
    · rw [hrest, space32, space32, size32, align4]
      omega
    · rw [size32_cons hrest, space32]
      omega

/-- Only the padding of the last message is between the two sizes. -/
theorem space32_le (msgs : List Message) : space32 msgs ≤ size32 msgs + 3 := by
  induction msgs with
  | nil => exact Nat.zero_le _
  | cons msg rest ih =>
    by_cases hrest : rest = []
    · rw [hrest, space32, space32, size32, align4]
      omega
    · rw [size32_cons hrest, space32]
      omega

end Sizes

/-! ## Sending -/

section Send

variable {g control : Buffer} {h : Msghdr32} {p o L : ℕ} {msg : Message} {rest msgs : List Message}

theorem nxthdr_of_read (h : control.read o msg.len64 = msg.encode64) (hlen : msg.len64 < 2 ^ 64)
    (C : ℕ) : nxthdr control C o =
      if C < o + align8 msg.len64 + 16 then none else some (o + align8 msg.len64) := by
  have hnumber : control.number o 8 = msg.len64 :=
    number_of_read (read_encode64_iff.mp h).1 (lt_of_lt_of_le hlen (by decide))
  have hge : ¬msg.len64 < 16 := by
    rw [Message.len64]
    omega
  rw [nxthdr, hnumber]
  simp only [hge, false_or]

/-- A round at a message of the guest. -/
theorem sendRound_of_read (hmsg : g.read p msg.len32 = msg.encode32) (hlen : msg.len32 < 2 ^ 32) :
    sendRound g h ⟨p, some o, control, L⟩ =
      if room h < o + msg.len64 then .error .overrun
      else .ok (⟨align4 (p + msg.len32),
          if L + 4 < o + align8 msg.len64 + 16 then none else some (o + align8 msg.len64),
          place64 control o msg, L + 4⟩,
        decide (align4 (p + msg.len32) < u32 (h.control + h.controllen))) := by
  obtain ⟨hfirst, hlevel, htype, hdata⟩ := read_encode32_iff.mp hmsg
  have hnumber : g.number p 4 = msg.len32 :=
    number_of_read hfirst (lt_of_lt_of_le hlen (by decide))
  have hge : ¬msg.len32 < 12 := by
    rw [Message.len32]
    omega
  have hne : ¬msg.len32 = 0 := by omega
  have hsub : msg.len32 - 12 = msg.data.length := by
    rw [Message.len32]
    omega
  have hadd : msg.len32 + 4 = msg.len64 := by
    rw [Message.len32, Message.len64]
    omega
  have hlen64 : msg.len64 < 2 ^ 64 := by omega
  have hplace := nxthdr_of_read (read_place64 control o msg) hlen64 (L + 4)
  have hend : o + 16 + msg.data.length = o + msg.len64 := by rw [Message.len64, Nat.add_assoc]
  simp only [sendRound, hnumber, sendPayload, hne, hge, hsub, hadd, hlevel, htype, hdata, hend,
    if_false]
  by_cases hover : room h < o + msg.len64
  · rw [if_pos hover, if_pos hover]
    split <;> rfl
  · have hheader : ¬room h < o + 16 := by
      rw [Message.len64] at hover
      omega
    rw [if_neg hheader, if_neg hover, if_neg hover, ← hplace]
    rfl

/-- What the messages need: there is room for each, and `CMSG_NXTHDR` finds the place of each but
the first. -/
def Goes (G : ℕ) : ℕ → ℕ → List Message → Prop
  | _, _, [] => True
  | o, _, [msg] => o + msg.len64 ≤ G
  | o, L, msg :: rest => o + msg.len64 ≤ G ∧ o + align8 msg.len64 + 16 ≤ L + 4 ∧
      Goes G (o + align8 msg.len64) (L + 4) rest

theorem goes_cons {G : ℕ} (hrest : rest ≠ []) : Goes G o L (msg :: rest) ↔
    o + msg.len64 ≤ G ∧ o + align8 msg.len64 + 16 ≤ L + 4 ∧
      Goes G (o + align8 msg.len64) (L + 4) rest := by
  obtain ⟨next, rest, rfl⟩ := List.exists_cons_of_ne_nil hrest
  rfl

/-- Where the loop is: in front of messages that end where the buffer of the guest ends. -/
structure Before (g : Buffer) (h : Msghdr32) (p : ℕ) (msgs : List Message) : Prop where
  aligned : 4 ∣ p
  holds : Holds32 g p msgs
  size : p + size32 msgs ≤ h.control + h.controllen
  space : h.control + h.controllen ≤ p + space32 msgs

theorem Before.next (hbefore : Before g h p (msg :: rest)) (hrest : rest ≠ []) :
    Before g h (align4 (p + msg.len32)) rest := by
  obtain ⟨haligned, ⟨-, hholds⟩, hsize, hspace⟩ := hbefore
  have heq : align4 (p + msg.len32) = p + align4 msg.len32 := by
    rw [align4, align4]
    omega
  rw [size32_cons hrest] at hsize
  rw [space32] at hspace
  rw [heq]
  refine ⟨?_, hholds, by omega, by omega⟩
  rw [align4]
  omega

/-- After a message there is another round iff there is another message. -/
theorem Before.again_iff (hbefore : Before g h p (msg :: rest)) :
    align4 (p + msg.len32) < h.control + h.controllen ↔ rest ≠ [] := by
  obtain ⟨haligned, -, hsize, hspace⟩ := hbefore
  constructor
  · rintro hlt rfl
    rw [space32, space32] at hspace
    rw [align4] at hlt hspace
    omega
  · intro hrest
    have hpos := twelve_le_size32 hrest
    rw [size32_cons hrest] at hsize
    rw [align4] at hsize ⊢
    omega

/-- A round in front of a message: it fails, or the message is in the buffer of the host. -/
theorem Before.sendRound_eq (hbefore : Before g h p (msg :: rest))
    (hend : h.control + h.controllen < 2 ^ 32) (o L : ℕ) (control : Buffer) :
    sendRound g h ⟨p, some o, control, L⟩ =
      if room h < o + msg.len64 then .error .overrun
      else .ok (⟨align4 (p + msg.len32),
          if L + 4 < o + align8 msg.len64 + 16 then none else some (o + align8 msg.len64),
          place64 control o msg, L + 4⟩, decide (rest ≠ [])) := by
  have hlen : msg.len32 < 2 ^ 32 := by
    have hle : msg.len32 ≤ size32 (msg :: rest) := len32_le_size32
    have hsize := hbefore.size
    omega
  have hagain : decide (align4 (p + msg.len32) < u32 (h.control + h.controllen)) =
      decide (rest ≠ []) := by
    rw [u32, Nat.mod_eq_of_lt hend]
    exact decide_eq_decide.mpr hbefore.again_iff
  rw [sendRound_of_read hbefore.holds.1 hlen, hagain]

theorem sendLoop_of_goes (hend : h.control + h.controllen < 2 ^ 32) (control : Buffer) {rounds : ℕ}
    (hne : msgs ≠ [])
    (hbefore : Before g h p msgs) (hgoes : Goes (room h) o L msgs)
    (hrounds : msgs.length ≤ rounds) :
    ∃ control', sendLoop g h rounds ⟨p, some o, control, L⟩ =
        some (.ok (control', L + 4 * msgs.length)) ∧
      Holds64 control' o msgs ∧ ∀ x < o, control' x = control x := by
  induction msgs generalizing p o L control rounds with
  | nil => exact absurd rfl hne
  | cons msg rest ih =>
    obtain ⟨rounds, rfl⟩ := Nat.exists_eq_add_of_le' hrounds
    have hround := hbefore.sendRound_eq hend o L control
    by_cases hrest : rest = []
    · subst hrest
      have hroom : ¬room h < o + msg.len64 := Nat.not_lt.mpr hgoes
      rw [if_neg hroom] at hround
      refine ⟨place64 control o msg, ?_, ⟨read_place64 control o msg, trivial⟩,
        fun x hx ↦ place64_apply hx⟩
      rw [List.length_singleton, sendLoop, hround]
      rfl
    · obtain ⟨hroom, hnext, hgoes⟩ := (goes_cons hrest).mp hgoes
      rw [if_neg (Nat.not_lt.mpr hroom), if_neg (Nat.not_lt.mpr hnext),
        decide_eq_true hrest] at hround
      obtain ⟨control', hloop, hholds, hbelow⟩ := ih (place64 control o msg) hrest
        (hbefore.next hrest) hgoes (Nat.le_add_left rest.length rounds)
      refine ⟨control', ?_, ⟨?_, hholds⟩, fun x hx ↦ ?_⟩
      · rw [List.length_cons, ← Nat.add_assoc, sendLoop, hround]
        rw [show L + 4 * (rest.length + 1) = L + 4 + 4 * rest.length by omega]
        exact hloop
      · rw [← read_place64 control o msg]
        refine read_congr fun x _ hx ↦ hbelow x ?_
        rw [align8]
        omega
      · rw [hbelow x (by omega), place64_apply hx]

theorem goes_of_sendLoop (hend : h.control + h.controllen < 2 ^ 32) {rounds : ℕ}
    {r : Buffer × ℕ} (hbefore : Before g h p msgs)
    (hloop : sendLoop g h rounds ⟨p, some o, control, L⟩ = some (.ok r)) :
    Goes (room h) o L msgs := by
  induction msgs generalizing p o L control rounds with
  | nil => trivial
  | cons msg rest ih =>
    obtain _ | rounds := rounds
    · exact nomatch hloop
    rw [sendLoop, hbefore.sendRound_eq hend] at hloop
    by_cases hroom : room h < o + msg.len64
    · rw [if_pos hroom] at hloop
      exact nomatch hloop
    rw [if_neg hroom] at hloop
    by_cases hrest : rest = []
    · rw [hrest]
      exact Nat.not_lt.mp hroom
    rw [decide_eq_true hrest] at hloop
    by_cases hnext : L + 4 < o + align8 msg.len64 + 16
    · -- the next round writes to the null pointer
      rw [if_pos hnext] at hloop
      obtain _ | rounds := rounds
      · exact nomatch hloop
      · exact nomatch hloop
    · rw [if_neg hnext] at hloop
      exact (goes_cons hrest).mpr
        ⟨Nat.not_lt.mp hroom, Nat.not_lt.mp hnext, ih (hbefore.next hrest) hloop⟩

end Send

/-! ## What the kernel gets -/

section Kernel

variable {control : Buffer} {o C : ℕ} {msg : Message} {msgs l : List Message}

theorem number_word {m : Buffer} {a : ℕ} {v : BitVec 32} (h : m.read a 4 = ofNat 4 v.toNat) :
    BitVec.ofNat 32 (m.number a 4) = v := by
  rw [number_of_read h (lt_of_lt_of_le v.isLt (by decide)), BitVec.ofNat_toNat, BitVec.setWidth_eq]

/-- The kernel at a message. -/
theorem walk_of_read (h : control.read o msg.len64 = msg.encode64) (hlen : msg.len64 < 2 ^ 64)
    (hheader : o + 16 ≤ C) (rounds : ℕ) :
    walk control C (rounds + 1) o = if C < o + msg.len64 then none
      else (walk control C rounds (o + align8 msg.len64)).map (msg :: ·) := by
  obtain ⟨hfirst, hlevel, htype, hdata⟩ := read_encode64_iff.mp h
  have hnumber : control.number o 8 = msg.len64 :=
    number_of_read hfirst (lt_of_lt_of_le hlen (by decide))
  have hge : ¬msg.len64 < 16 := by
    rw [Message.len64]
    omega
  have hsub : msg.len64 - 16 = msg.data.length := by
    rw [Message.len64]
    omega
  rw [walk, if_neg (Nat.not_lt.mpr hheader), hnumber, number_word hlevel, number_word htype]
  simp only [hge, hsub, hdata, false_or]
  split
  · rfl
  · rw [Option.map_eq_bind]
    rfl

theorem walk_of_holds {rounds : ℕ} (hholds : Holds64 control o msgs)
    (hlen : ∀ msg ∈ msgs, msg.len64 < 2 ^ 64) (hsize : o + size64 msgs ≤ C)
    (hspace : C < o + space64 msgs + 16) (hrounds : msgs.length < rounds) :
    walk control C rounds o = some msgs := by
  induction msgs generalizing o rounds with
  | nil =>
    obtain _ | rounds := rounds
    · exact absurd hrounds (Nat.not_lt_zero _)
    rw [walk, if_pos (by rw [space64] at hspace; omega)]
  | cons msg rest ih =>
    obtain _ | rounds := rounds
    · exact absurd hrounds (Nat.not_lt_zero _)
    rw [List.length_cons] at hrounds
    have hpos := sixteen_le_size64 (List.cons_ne_nil msg rest)
    have hfits : ¬C < o + msg.len64 := by
      have hle : msg.len64 ≤ size64 (msg :: rest) := len64_le_size64
      omega
    rw [walk_of_read hholds.1 (hlen msg List.mem_cons_self) (by omega), if_neg hfits]
    rw [space64] at hspace
    by_cases hrest : rest = []
    · subst hrest
      obtain _ | rounds := rounds
      · exact absurd hrounds (lt_irrefl _)
      rw [space64] at hspace
      rw [walk, if_pos (by omega)]
      rfl
    · rw [size64_cons hrest] at hsize
      rw [ih hholds.2 (fun msg hmem ↦ hlen msg (List.mem_cons_of_mem _ hmem)) (by omega) (by omega)
        (by omega)]
      rfl

theorem kernelMessages_of_eq_zero (h : C = 0) : kernelMessages control C = some [] := by
  rw [h]
  rfl

/-- If the messages have been placed where `CMSG_NXTHDR` says, then the kernel gets them or has an
error. -/
theorem eq_of_walk {G L rounds : ℕ} (hne : msgs ≠ []) (hholds : Holds64 control o msgs)
    (hlen : ∀ msg ∈ msgs, msg.len64 < 2 ^ 64) (hgoes : Goes G o L msgs) (hheader : o + 16 ≤ C)
    (hC : C = L + 4 * msgs.length) (hspace : C < o + space64 msgs + 16)
    (hwalk : walk control C rounds o = some l) : l = msgs ∧ o + size64 msgs ≤ C := by
  induction msgs generalizing o L l rounds with
  | nil => exact absurd rfl hne
  | cons msg rest ih =>
    obtain _ | rounds := rounds
    · exact nomatch hwalk
    rw [walk_of_read hholds.1 (hlen msg List.mem_cons_self) hheader] at hwalk
    by_cases hover : C < o + msg.len64
    · rw [if_pos hover] at hwalk
      exact nomatch hwalk
    rw [if_neg hover] at hwalk
    obtain ⟨l, hafter, rfl⟩ := Option.map_eq_some_iff.mp hwalk
    rw [space64] at hspace
    by_cases hrest : rest = []
    · subst hrest
      obtain _ | rounds := rounds
      · exact nomatch hafter
      rw [space64] at hspace
      rw [walk, if_pos (by omega)] at hafter
      rw [← Option.some.inj hafter, size64]
      exact ⟨rfl, by omega⟩
    · obtain ⟨-, hnext, hgoes⟩ := (goes_cons hrest).mp hgoes
      have hpos := List.length_pos_of_ne_nil hrest
      rw [List.length_cons] at hC
      obtain ⟨rfl, hsize⟩ := ih hrest hholds.2
        (fun msg hmem ↦ hlen msg (List.mem_cons_of_mem _ hmem)) hgoes (by omega)
          (by omega) (by omega)
        hafter
      rw [size64_cons hrest]
      exact ⟨rfl, by omega⟩

end Kernel

/-! ## When the messages arrive -/

/-- The header and the control buffer of a guest with these messages. The kernel does not take a
buffer of `2 ^ 31` bytes. -/
structure WellFormed (g : Buffer) (h : Msghdr32) (msgs : List Message) : Prop
    extends Layout32 g h.control h.controllen msgs where
  inMemory : h.control + h.controllen < 2 ^ 32
  small : h.controllen < 2 ^ 31

/-- The kernel gets the messages. -/
def SendRight (g : Buffer) (h : Msghdr32) (msgs : List Message) : Prop :=
  ∀ garbage, ∃ sent, sendmsg32 g h garbage = some (.ok sent) ∧
    kernelMessages sent.control sent.controllen = some msgs

/-- Every message but the last one is padded by the same amount in both layouts, and has 16 bytes of
the guest's buffer after it: `left` are those not yet used. -/
def SendOk : ℕ → List Message → Prop
  | _, [] => True
  | _, [_] => True
  | left, msg :: rest => (msg.data.length % 8 = 0 ∨ 5 ≤ msg.data.length % 8) ∧
      align4 msg.len32 + 16 ≤ left ∧ SendOk (left - align4 msg.len32) rest

section Arrive

variable {g garbage : Buffer} {h : Msghdr32} {left o L : ℕ} {msg : Message}
  {rest msgs l : List Message} {sent : Msghdr64}

theorem sendOk_cons (hrest : rest ≠ []) : SendOk left (msg :: rest) ↔
    (msg.data.length % 8 = 0 ∨ 5 ≤ msg.data.length % 8) ∧
      align4 msg.len32 + 16 ≤ left ∧ SendOk (left - align4 msg.len32) rest := by
  obtain ⟨next, rest, rfl⟩ := List.exists_cons_of_ne_nil hrest
  rfl

theorem align8_len64_eq_iff : align8 msg.len64 = align4 msg.len32 + 4 ↔
    msg.data.length % 8 = 0 ∨ 5 ≤ msg.data.length % 8 := by
  rw [align8, align4, Message.len32, Message.len64]
  omega

theorem align4_add_le_align8 : align4 msg.len32 + 4 ≤ align8 msg.len64 := by
  rw [align8, align4, Message.len32, Message.len64]
  omega

theorem size32_add_le_size64 (msgs : List Message) :
    size32 msgs + 4 * msgs.length ≤ size64 msgs := by
  induction msgs with
  | nil => exact le_rfl
  | cons msg rest ih =>
    by_cases hrest : rest = []
    · rw [hrest, size32, size64, List.length_singleton, Message.len32, Message.len64]
      omega
    · have hle : align4 msg.len32 + 4 ≤ align8 msg.len64 := align4_add_le_align8
      rw [size32_cons hrest, size64_cons hrest, List.length_cons]
      omega

theorem space32_add_le_space64 (msgs : List Message) :
    space32 msgs + 4 * msgs.length ≤ space64 msgs := by
  induction msgs with
  | nil => exact le_rfl
  | cons msg rest ih =>
    have hle : align4 msg.len32 + 4 ≤ align8 msg.len64 := align4_add_le_align8
    rw [space32, space64, List.length_cons]
    omega

/-- The buffer is longer by 4 bytes for each message. If it holds them all, then no message can
have needed more than that. -/
theorem sendOk_of_goes {G : ℕ} (hgoes : Goes G o L msgs)
    (hsize : o + size64 msgs ≤ L + 4 * msgs.length) (hL : L ≤ o + left)
    (hleft : left ≤ space32 msgs) : SendOk left msgs := by
  induction msgs generalizing o L left with
  | nil => trivial
  | cons msg rest ih =>
    by_cases hrest : rest = []
    · rw [hrest]
      trivial
    obtain ⟨-, hnext, hgoes⟩ := (goes_cons hrest).mp hgoes
    rw [size64_cons hrest, List.length_cons] at hsize
    rw [space32] at hleft
    have hrest64 := size32_add_le_size64 rest
    have hrest32 := space32_le rest
    have heq : align8 msg.len64 = align4 msg.len32 + 4 := by
      have hle : align4 msg.len32 + 4 ≤ align8 msg.len64 := align4_add_le_align8
      have hmod4 : align8 msg.len64 % 4 = 0 ∧ align4 msg.len32 % 4 = 0 := by
        rw [align8, align4]
        omega
      omega
    refine (sendOk_cons hrest).mpr ⟨align8_len64_eq_iff.mp heq, by omega, ?_⟩
    exact ih hgoes (by omega) (by omega) (by omega)

theorem goes_of_sendOk {G : ℕ} (hok : SendOk left msgs) (hne : msgs ≠ [])
    (hL : L = o + left) (hleft : size32 msgs ≤ left) (hG : 3 * o + 4 * left ≤ 4 * G) :
    Goes (2 * G) o L msgs ∧ o + size64 msgs ≤ L + 4 * msgs.length := by
  induction msgs generalizing o L left with
  | nil => exact absurd rfl hne
  | cons msg rest ih =>
    by_cases hrest : rest = []
    · subst hrest
      rw [size32, Message.len32] at hleft
      rw [Goes, size64, List.length_singleton, Message.len64]
      constructor
      · omega
      · omega
    obtain ⟨hpad, hroom, hok⟩ := (sendOk_cons hrest).mp hok
    have heq := align8_len64_eq_iff.mpr hpad
    have hlen : msg.len64 ≤ align8 msg.len64 := by
      rw [align8]
      omega
    have hpos : 12 ≤ align4 msg.len32 := by
      rw [align4, Message.len32]
      omega
    rw [size32_cons hrest] at hleft
    obtain ⟨hgoes, hsize⟩ := ih (o := o + align8 msg.len64) (L := L + 4) hok hrest (by omega)
      (by omega) (by omega)
    rw [goes_cons hrest, size64_cons hrest, List.length_cons]
    exact ⟨⟨by omega, by omega, hgoes⟩, by omega⟩

theorem WellFormed.before (hwf : WellFormed g h msgs) : Before g h h.control msgs :=
  ⟨hwf.aligned, hwf.holds, Nat.add_le_add_left hwf.size _, Nat.add_le_add_left hwf.space _⟩

theorem WellFormed.room_eq (hwf : WellFormed g h msgs) : room h = 2 * h.controllen := by
  have hsmall := hwf.small
  rw [room, u32, Nat.mod_eq_of_lt (by omega), Nat.mul_comm]

theorem len32_le_of_mem (hmem : msg ∈ msgs) : msg.len32 ≤ size32 msgs := by
  induction msgs with
  | nil => exact nomatch hmem
  | cons first rest ih =>
    obtain rfl | hmem := List.mem_cons.mp hmem
    · exact len32_le_size32
    · rw [size32_cons (List.ne_nil_of_mem hmem)]
      exact (ih hmem).trans (Nat.le_add_left _ _)

theorem WellFormed.len64_lt (hwf : WellFormed g h msgs) (hmem : msg ∈ msgs) :
    msg.len64 < 2 ^ 64 := by
  have hle := len32_le_of_mem hmem
  have hsize := hwf.size
  have hsmall := hwf.small
  rw [Message.len32] at hle
  rw [Message.len64]
  omega

theorem length_le_size32 (msgs : List Message) : 4 * msgs.length ≤ size32 msgs := by
  induction msgs with
  | nil => exact le_rfl
  | cons msg rest ih =>
    by_cases hrest : rest = []
    · rw [hrest, List.length_singleton, size32, Message.len32]
      omega
    · rw [size32_cons hrest, List.length_cons, align4, Message.len32]
      omega

theorem WellFormed.controllen_ne (hwf : WellFormed g h msgs) (hne : msgs ≠ []) :
    h.controllen ≠ 0 := by
  have hpos := twelve_le_size32 hne
  have hsize := hwf.size
  omega

theorem WellFormed.controllen_eq (hwf : WellFormed g h []) : h.controllen = 0 :=
  Nat.le_zero.mp hwf.space

/-- If all goes well then the messages are in the buffer, which has grown by 4 bytes for each. -/
theorem WellFormed.sent_of_goes (hwf : WellFormed g h msgs) (hne : msgs ≠ [])
    (hgoes : Goes (room h) 0 h.controllen msgs) (garbage : Buffer) :
    ∃ sent, sendmsg32 g h garbage = some (.ok sent) ∧ Holds64 sent.control 0 msgs ∧
      sent.controllen = h.controllen + 4 * msgs.length := by
  have hrounds : msgs.length ≤ h.controllen + 1 := by
    have hlength := length_le_size32 msgs
    have hsize := hwf.size
    omega
  obtain ⟨control, hloop, hholds, -⟩ := sendLoop_of_goes hwf.inMemory garbage hne
    hwf.before hgoes hrounds
  refine ⟨⟨h.name, h.namelen, iovecs g h.iov h.iovlen, control,
    h.controllen + 4 * msgs.length, h.flags⟩, ?_, hholds, rfl⟩
  rw [sendmsg32, if_neg (hwf.controllen_ne hne), hloop]
  rfl

theorem WellFormed.goes_of_sent (hwf : WellFormed g h msgs) (hne : msgs ≠ [])
    (hsent : sendmsg32 g h garbage = some (.ok sent)) : Goes (room h) 0 h.controllen msgs := by
  rw [sendmsg32, if_neg (hwf.controllen_ne hne)] at hsent
  obtain ⟨r, hloop, hr⟩ := Option.map_eq_some_iff.mp hsent
  obtain e | r := r
  · exact nomatch hr
  · exact goes_of_sendLoop hwf.inMemory hwf.before hloop

/-- Whatever the kernel takes from the buffer, it is the messages. -/
theorem WellFormed.eq_of_kernelMessages (hwf : WellFormed g h msgs)
    (hsent : sendmsg32 g h garbage = some (.ok sent))
    (hkernel : kernelMessages sent.control sent.controllen = some l) :
    l = msgs ∧ SendOk h.controllen msgs := by
  by_cases hne : msgs = []
  · subst hne
    have hzero := hwf.controllen_eq
    rw [sendmsg32, if_pos hzero] at hsent
    obtain rfl := Except.ok.inj (Option.some.inj hsent)
    have hempty : some [] = some l := (kernelMessages_of_eq_zero hzero).symm.trans hkernel
    exact ⟨(Option.some.inj hempty).symm, trivial⟩
  have hgoes := hwf.goes_of_sent hne hsent
  obtain ⟨sent', hsent', hholds, hlen⟩ := hwf.sent_of_goes hne hgoes garbage
  obtain rfl : sent = sent' := Except.ok.inj (Option.some.inj (hsent.symm.trans hsent'))
  have hlength := List.length_pos_of_ne_nil hne
  have htwelve := (twelve_le_size32 hne).trans hwf.size
  have hspace := space32_add_le_space64 msgs
  have hwfspace := hwf.space
  obtain ⟨rfl, hsize⟩ := eq_of_walk hne hholds (fun msg hmem ↦ hwf.len64_lt hmem) hgoes (by omega)
    hlen (by omega) hkernel
  exact ⟨rfl, sendOk_of_goes hgoes (by omega) (by omega) hwf.space⟩

theorem WellFormed.kernelMessages_of_sendOk (hwf : WellFormed g h msgs)
    (hok : SendOk h.controllen msgs) (garbage : Buffer) :
    ∃ sent, sendmsg32 g h garbage = some (.ok sent) ∧
      kernelMessages sent.control sent.controllen = some msgs := by
  by_cases hne : msgs = []
  · subst hne
    have hzero := hwf.controllen_eq
    exact ⟨_, if_pos hzero, kernelMessages_of_eq_zero hzero⟩
  obtain ⟨hgoes, hsize⟩ := goes_of_sendOk (o := 0) (G := h.controllen) hok hne (Nat.zero_add _).symm
    hwf.size (by omega)
  rw [← hwf.room_eq] at hgoes
  obtain ⟨sent, hsent, hholds, hlen⟩ := hwf.sent_of_goes hne hgoes garbage
  have hspace := space32_add_le_space64 msgs
  have hwfspace := hwf.space
  have hlength := length_le_size32 msgs
  have hwfsize := hwf.size
  refine ⟨sent, hsent, walk_of_holds hholds (fun msg hmem ↦ hwf.len64_lt hmem) ?_ ?_ ?_⟩
  · omega
  · omega
  · omega

theorem WellFormed.sendRight_iff (hwf : WellFormed g h msgs) :
    SendRight g h msgs ↔ SendOk h.controllen msgs := by
  constructor
  · intro hright
    obtain ⟨sent, hsent, hkernel⟩ := hright fun _ ↦ 0
    exact (hwf.eq_of_kernelMessages hsent hkernel).2
  · exact hwf.kernelMessages_of_sendOk

end Arrive

/-! ## Receiving -/

/-- What `recvmsg32` reports as the length: the padding between the messages is not in it. -/
def sum32 (msgs : List Message) : ℕ := (msgs.map Message.len32).sum

/-- The kernel has returned these messages. -/
structure Carries (h : Msghdr32) (r : Reply) (msgs : List Message) : Prop
    extends Layout64 r.control 0 r.controllen msgs where
  ok : r.result ≠ -1
  fits : r.controllen ≤ room h

/-- The guest gets the messages or `MSG_CTRUNC`, which is bit 3, and nothing changes outside of its
buffer. -/
def RecvRight (h : Msghdr32) (r : Reply) (msgs : List Message) : Prop :=
  ∀ g, ∃ g' h', recvmsg32 g h r = some (.ok (g', h')) ∧
    (∀ x, x < h.control ∨ h.control + h.controllen ≤ x → g' x = g x) ∧
    if size32 msgs ≤ h.controllen then Layout32 g' h.control h'.controllen msgs ∧ h'.flags = r.flags
    else h'.flags.testBit 3

/-- The messages are not too long for the guest, and no message but the last one is padded. -/
def RecvOk (controllen : ℕ) (msgs : List Message) : Prop :=
  size32 msgs ≤ controllen ∧ ∀ msg ∈ msgs.dropLast, 4 ∣ msg.data.length

section Recv

variable {control : Buffer} {h : Msghdr32} {r : Reply} {o C : ℕ} {msg : Message}
  {rest msgs : List Message} {s : RecvState}

/-- A round at a message of the host. -/
theorem recvRound_of_read (hmsg : control.read o msg.len64 = msg.encode64)
    (hlen : msg.len64 < 2 ^ 32) : recvRound control o s =
      .ok ⟨place32 s.guest s.guestPtr msg, align4 (s.guestPtr + msg.len32),
        u32 (s.controllen + msg.len32)⟩ := by
  obtain ⟨hfirst, hlevel, htype, hdata⟩ := read_encode64_iff.mp hmsg
  have hnumber : control.number o 8 = msg.len64 :=
    number_of_read hfirst (lt_of_lt_of_le hlen (by decide))
  have hge : ¬msg.len64 < 16 := by
    rw [Message.len64]
    omega
  have hne : ¬msg.len64 = 0 := by omega
  have hsub : msg.len64 - 16 = msg.data.length := by
    rw [Message.len64]
    omega
  have hlen32 : u32 (u64 (msg.len64 + (2 ^ 64 - 4))) = msg.len32 := by
    rw [Message.len64] at hlen ⊢
    rw [u32, u64, Message.len32]
    omega
  simp only [recvRound, hnumber, hne, hge, hsub, hlevel, htype, hdata, hlen32, if_false]
  rfl

theorem recvLoop_none (rounds : ℕ) : recvLoop control C rounds none s = some (.ok s) := by
  cases rounds with
  | zero => rfl
  | succ rounds => rfl

theorem sum32_cons : sum32 (msg :: rest) = msg.len32 + sum32 rest := rfl

theorem sum32_le_size32 (msgs : List Message) : sum32 msgs ≤ size32 msgs := by
  induction msgs with
  | nil => exact le_rfl
  | cons msg rest ih =>
    by_cases hrest : rest = []
    · rw [hrest]
      exact le_rfl
    · rw [sum32_cons, size32_cons hrest, align4]
      omega

theorem sum32_eq_iff (msgs : List Message) :
    size32 msgs ≤ sum32 msgs ↔ ∀ msg ∈ msgs.dropLast, 4 ∣ msg.data.length := by
  induction msgs with
  | nil => exact iff_of_true le_rfl fun msg hmem ↦ nomatch hmem
  | cons msg rest ih =>
    by_cases hrest : rest = []
    · rw [hrest]
      exact iff_of_true le_rfl fun msg hmem ↦ nomatch hmem
    · have hle := sum32_le_size32 rest
      rw [sum32_cons, size32_cons hrest, List.dropLast_cons_of_ne_nil hrest, List.forall_mem_cons,
        ← ih, align4, Message.len32]
      omega

theorem recvLoop_of_holds (rounds : ℕ) (hne : msgs ≠ []) (hholds : Holds64 control o msgs)
    (hsize : o + size64 msgs ≤ C) (hspace : C ≤ o + space64 msgs) (hC : C < 2 ^ 32)
    (haligned : 4 ∣ s.guestPtr) (hsum : s.controllen + sum32 msgs < 2 ^ 32)
    (hrounds : msgs.length ≤ rounds) :
    ∃ s', recvLoop control C rounds (some o) s = some (.ok s') ∧
      Holds32 s'.guest s.guestPtr msgs ∧ s'.controllen = s.controllen + sum32 msgs ∧
        ∀ x, x < s.guestPtr ∨ s.guestPtr + size32 msgs ≤ x → s'.guest x = s.guest x := by
  induction msgs generalizing o s rounds with
  | nil => exact absurd rfl hne
  | cons msg rest ih =>
    obtain _ | rounds := rounds
    · exact absurd hrounds (Nat.not_succ_le_zero _)
    have hlen : msg.len64 < 2 ^ 32 := by
      have hle : msg.len64 ≤ size64 (msg :: rest) := len64_le_size64
      omega
    have hround := recvRound_of_read (s := s) hholds.1 hlen
    have hnext := nxthdr_of_read hholds.1 (lt_of_lt_of_le hlen (by decide)) C
    rw [sum32_cons] at hsum
    rw [space64] at hspace
    rw [u32, Nat.mod_eq_of_lt (by omega)] at hround
    by_cases hrest : rest = []
    · subst hrest
      rw [space64] at hspace
      rw [if_pos (by omega)] at hnext
      refine ⟨⟨place32 s.guest s.guestPtr msg, align4 (s.guestPtr + msg.len32),
        s.controllen + msg.len32⟩, ?_, ⟨read_place32 s.guest s.guestPtr msg, trivial⟩, rfl,
        fun x hx ↦ place32_apply hx⟩
      rw [recvLoop, hround, hnext]
      exact recvLoop_none _
    · have hpos := sixteen_le_size64 hrest
      rw [size64_cons hrest] at hsize
      rw [if_neg (by omega)] at hnext
      have hptr : align4 (s.guestPtr + msg.len32) = s.guestPtr + align4 msg.len32 := by
        rw [align4, align4]
        omega
      rw [hptr] at hround
      have hle : msg.len32 ≤ align4 msg.len32 ∧ 4 ∣ align4 msg.len32 := by
        rw [align4]
        omega
      obtain ⟨s', hloop, hholds', hlen', hout⟩ := ih
        (s := ⟨place32 s.guest s.guestPtr msg, s.guestPtr + align4 msg.len32,
          s.controllen + msg.len32⟩) rounds hrest hholds.2 (by omega) (by omega)
        ((Nat.dvd_add_right haligned).mpr hle.2) (by rw [Nat.add_assoc]; exact hsum)
        (Nat.le_of_succ_le_succ hrounds)
      refine ⟨s', ?_, ⟨?_, hholds'⟩, ?_, fun x hx ↦ ?_⟩
      · rw [recvLoop, hround, hnext]
        exact hloop
      · rw [← read_place32 s.guest s.guestPtr msg]
        exact read_congr fun x _ hx ↦ hout x (.inl (by dsimp only; omega))
      · rw [hlen', sum32_cons, ← Nat.add_assoc]
      · rw [size32_cons hrest] at hx
        rw [hout x (by dsimp only; omega)]
        exact place32_apply (by omega)

theorem length_le_size64 (msgs : List Message) : msgs.length ≤ size64 msgs := by
  have hle := size32_add_le_size64 msgs
  omega

theorem Carries.controllen_lt (hcarries : Carries h r msgs) : r.controllen < 2 ^ 32 :=
  hcarries.fits.trans_lt (Nat.mod_lt _ (by decide))

/-- The guest gets the messages in any case. What can be wrong is the length. -/
theorem Carries.recvmsg32_eq (hcarries : Carries h r msgs) (haligned : 4 ∣ h.control) (g : Buffer) :
    ∃ g', recvmsg32 g h r = some (.ok (g', filled h r (sum32 msgs))) ∧ Holds32 g' h.control msgs ∧
      ∀ x, x < h.control ∨ h.control + size32 msgs ≤ x → g' x = g x := by
  have hok := hcarries.ok
  have hlt := hcarries.controllen_lt
  have hsize := hcarries.size
  by_cases hne : msgs = []
  · subst hne
    have hspace : r.controllen ≤ 0 := hcarries.space
    refine ⟨g, ?_, trivial, fun x _ ↦ rfl⟩
    rw [recvmsg32, if_neg hok, firsthdr, if_pos (by omega), recvLoop_none]
    rfl
  have hpos := sixteen_le_size64 hne
  have hsum := (sum32_le_size32 msgs).trans
    ((Nat.le_add_right _ _).trans (size32_add_le_size64 msgs))
  have hlength := length_le_size64 msgs
  obtain ⟨s, hloop, hholds, hlen, hout⟩ := recvLoop_of_holds (s := ⟨g, h.control, 0⟩)
    (r.controllen + 1) hne hcarries.holds (by omega)
    (by rw [Nat.zero_add]; exact hcarries.space) hlt haligned
    (by dsimp only; omega) (by omega)
  refine ⟨s.guest, ?_, hholds, hout⟩
  rw [recvmsg32, if_neg hok, firsthdr, if_neg (by omega), hloop, ← Nat.zero_add (sum32 msgs),
    ← hlen]
  rfl

/-- The last byte of the last message does not depend on what was in memory before. -/
theorem last_of_holds (hne : msgs ≠ []) : ∃ byte, ∀ (m : Buffer) (a : ℕ), Holds32 m a msgs →
    m (a + size32 msgs - 1) = byte := by
  induction msgs with
  | nil => exact absurd rfl hne
  | cons msg rest ih =>
    by_cases hrest : rest = []
    · subst hrest
      refine ⟨(msg.encode32[msg.len32 - 1]?).getD 0, fun m a hholds ↦ ?_⟩
      have hlt : msg.len32 - 1 < msg.len32 := by
        rw [Message.len32]
        omega
      rw [← hholds.1, getElem?_read hlt, Option.getD_some, size32, Nat.add_sub_assoc (by omega)]
    · obtain ⟨byte, hbyte⟩ := ih hrest
      refine ⟨byte, fun m a hholds ↦ ?_⟩
      rw [size32_cons hrest, ← Nat.add_assoc]
      exact hbyte m _ hholds.2

theorem Carries.recvRight_iff (hcarries : Carries h r msgs) (haligned : 4 ∣ h.control) :
    RecvRight h r msgs ↔ RecvOk h.controllen msgs := by
  constructor
  · intro hright
    have hfits : size32 msgs ≤ h.controllen := by
      by_contra hlong
      have hne : msgs ≠ [] := by
        rintro rfl
        exact hlong (Nat.zero_le _)
      -- a byte past the end is the same for every memory
      obtain ⟨byte, hbyte⟩ := last_of_holds hne
      have hwritten : ∀ v : BitVec 8, v = byte := by
        intro v
        obtain ⟨g', h', hrecv, hout, -⟩ := hright fun _ ↦ v
        obtain ⟨g'', hrecv', hholds, -⟩ := hcarries.recvmsg32_eq haligned fun _ ↦ v
        obtain ⟨rfl, -⟩ := Prod.mk.inj (Except.ok.inj (Option.some.inj (hrecv.symm.trans hrecv')))
        rw [← hbyte g' h.control hholds, hout _ (.inr (by omega))]
      exact absurd ((hwritten 0).trans (hwritten 1).symm) (by decide)
    refine ⟨hfits, ?_⟩
    obtain ⟨g', h', hrecv, -, hlayout⟩ := hright fun _ ↦ 0
    obtain ⟨g'', hrecv', -, -⟩ := hcarries.recvmsg32_eq haligned fun _ ↦ 0
    obtain ⟨-, rfl⟩ := Prod.mk.inj (Except.ok.inj (Option.some.inj (hrecv.symm.trans hrecv')))
    rw [if_pos hfits] at hlayout
    exact (sum32_eq_iff msgs).mp hlayout.1.size
  · rintro ⟨hfits, hpad⟩ g
    obtain ⟨g', hrecv, hholds, hout⟩ := hcarries.recvmsg32_eq haligned g
    refine ⟨g', _, hrecv, fun x hx ↦ hout x (by omega), ?_⟩
    rw [if_pos hfits]
    exact ⟨⟨haligned, hholds, (sum32_eq_iff msgs).mpr hpad,
      (sum32_le_size32 msgs).trans (size32_le_space32 msgs)⟩, rfl⟩

end Recv

/-! ## The loops end -/

section Ends

variable {g control : Buffer} {h : Msghdr32} {s s' : SendState}

/-- Another round is at a higher address, inside the buffer of the guest. -/
theorem sendRound_lt (hround : sendRound g h s = .ok (s', true)) :
    s.guestPtr < s'.guestPtr ∧ s'.guestPtr < u32 (h.control + h.controllen) := by
  obtain ⟨p, _ | o, control, L⟩ := s
  · exact nomatch hround
  by_cases hroom : room h < o + 16
  · simp only [sendRound, hroom, if_true] at hround
    exact nomatch hround
  simp only [sendRound, hroom, if_false] at hround
  generalize sendPayload g h p o (g.number p 4) _ L = r at hround
  obtain e | ⟨control', L'⟩ := r
  · exact nomatch hround
  rw [show (Except.ok (control', L') : Except Crash (Buffer × ℕ)) = pure (control', L') from rfl,
    pure_bind] at hround
  split at hround
  · cases hround
  · next hlen =>
    obtain ⟨rfl, hlt⟩ := Prod.mk.inj (Except.ok.inj hround)
    refine ⟨?_, of_decide_eq_true hlt⟩
    dsimp only
    rw [align4]
    omega

theorem sendLoop_ne_none {rounds : ℕ} (hpos : 0 < rounds)
    (hrounds : u32 (h.control + h.controllen) - s.guestPtr < rounds) :
    sendLoop g h rounds s ≠ none := by
  induction rounds generalizing s with
  | zero => exact absurd hpos (lt_irrefl 0)
  | succ rounds ih =>
    rw [sendLoop]
    split
    · exact Option.some_ne_none _
    · next s' hround =>
      obtain ⟨hptr, hend⟩ := sendRound_lt hround
      exact ih (by omega) (by omega)
    · exact Option.some_ne_none _

theorem sendmsg32_ne_none (g : Buffer) (h : Msghdr32) (garbage : Buffer) :
    sendmsg32 g h garbage ≠ none := by
  rw [sendmsg32]
  split
  · exact Option.some_ne_none _
  · refine mt Option.map_eq_none_iff.mp (sendLoop_ne_none (Nat.succ_pos _) ?_)
    have hle : u32 (h.control + h.controllen) ≤ h.control + h.controllen := Nat.mod_le _ _
    dsimp only
    omega

theorem recvLoop_ne_none {C o rounds : ℕ} {s : RecvState} (hpos : 0 < rounds)
    (hrounds : C - o < rounds) : recvLoop control C rounds (some o) s ≠ none := by
  induction rounds generalizing o s with
  | zero => exact absurd hpos (lt_irrefl 0)
  | succ rounds ih =>
    rw [recvLoop]
    split
    · exact Option.some_ne_none _
    · rw [nxthdr]
      split
      · rw [recvLoop_none]
        exact Option.some_ne_none _
      · next hnext =>
        have hstep : 16 ≤ align8 (control.number o 8) := by
          rw [align8]
          omega
        exact ih (by omega) (by omega)

theorem recvmsg32_ne_none (g : Buffer) (h : Msghdr32) (r : Reply) : recvmsg32 g h r ≠ none := by
  rw [recvmsg32]
  split
  · exact Option.some_ne_none _
  · refine mt Option.map_eq_none_iff.mp ?_
    rw [firsthdr]
    split
    · rw [recvLoop_none]
      exact Option.some_ne_none _
    · exact recvLoop_ne_none (Nat.succ_pos _) (by omega)

end Ends

/-! ## There and back -/

/-- The messages go to the kernel and from there to a guest that has room for them, and are the same
ones. -/
def RoundTrip (g : Buffer) (h : Msghdr32) (msgs : List Message) : Prop :=
  ∀ garbage, ∃ sent l, sendmsg32 g h garbage = some (.ok sent) ∧
    kernelMessages sent.control sent.controllen = some l ∧
    ∀ k r, 4 ∣ k.control → size32 msgs ≤ k.controllen → Carries k r l → ∀ g₀, ∃ g' k',
      recvmsg32 g₀ k r = some (.ok (g', k')) ∧ Layout32 g' k.control k'.controllen msgs

section RoundTrip

variable {g : Buffer} {h : Msghdr32} {msgs : List Message}

theorem size64_le (msgs : List Message) : size64 msgs ≤ 2 * size32 msgs := by
  induction msgs with
  | nil => exact le_rfl
  | cons msg rest ih =>
    by_cases hrest : rest = []
    · rw [hrest, size32, size64, Message.len32, Message.len64]
      omega
    · rw [size32_cons hrest, size64_cons hrest, align4, align8, Message.len32, Message.len64]
      omega

theorem size64_le_space64 (msgs : List Message) : size64 msgs ≤ space64 msgs := by
  induction msgs with
  | nil => exact le_rfl
  | cons msg rest ih =>
    by_cases hrest : rest = []
    · rw [hrest, space64, space64, size64, align8]
      omega
    · rw [size64_cons hrest, space64]
      omega

/-- The kernel can return what it has got. -/
theorem WellFormed.exists_carries (hwf : WellFormed g h msgs) {garbage : Buffer} {sent : Msghdr64}
    (hsent : sendmsg32 g h garbage = some (.ok sent)) : ∃ r, Carries h r msgs := by
  have hholds : Holds64 sent.control 0 msgs := by
    by_cases hne : msgs = []
    · rw [hne]
      trivial
    obtain ⟨sent', hsent', hholds, -⟩ :=
      hwf.sent_of_goes hne (hwf.goes_of_sent hne hsent) garbage
    obtain rfl : sent = sent' := Except.ok.inj (Option.some.inj (hsent.symm.trans hsent'))
    exact hholds
  have hzero : (0 : ℤ) ≠ -1 := by decide
  refine ⟨⟨0, 0, sent.control, size64 msgs, 0⟩,
    ⟨hholds, le_rfl, size64_le_space64 msgs⟩, hzero, ?_⟩
  rw [hwf.room_eq]
  exact (size64_le msgs).trans (Nat.mul_le_mul_left 2 hwf.size)

theorem WellFormed.roundTrip_iff (hwf : WellFormed g h msgs) : RoundTrip g h msgs ↔
    SendOk h.controllen msgs ∧ ∀ msg ∈ msgs.dropLast, 4 ∣ msg.data.length := by
  constructor
  · intro htrip
    obtain ⟨sent, l, hsent, hkernel, hrecv⟩ := htrip fun _ ↦ 0
    obtain ⟨rfl, hok⟩ := hwf.eq_of_kernelMessages hsent hkernel
    obtain ⟨r, hcarries⟩ := hwf.exists_carries hsent
    obtain ⟨g', h', hout, hlayout⟩ := hrecv h r hwf.aligned hwf.size hcarries fun _ ↦ 0
    obtain ⟨g'', hout', -, -⟩ := hcarries.recvmsg32_eq hwf.aligned fun _ ↦ 0
    obtain ⟨-, rfl⟩ := Prod.mk.inj (Except.ok.inj (Option.some.inj (hout.symm.trans hout')))
    exact ⟨hok, (sum32_eq_iff l).mp hlayout.size⟩
  · rintro ⟨hok, hpad⟩ garbage
    obtain ⟨sent, hsent, hkernel⟩ := hwf.kernelMessages_of_sendOk hok garbage
    refine ⟨sent, msgs, hsent, hkernel, fun k r haligned hfits hcarries g₀ ↦ ?_⟩
    obtain ⟨g', k', hout, -, hlayout⟩ := (hcarries.recvRight_iff haligned).mpr ⟨hfits, hpad⟩ g₀
    rw [if_pos hfits] at hlayout
    exact ⟨g', k', hout, hlayout.1⟩

end RoundTrip

/-- Both functions end. When messages get through in one direction, in the other, and in both. -/
theorem lossless_iff (g : Buffer) (h : Msghdr32) (msgs : List Message) :
    (∀ garbage, sendmsg32 g h garbage ≠ none) ∧ (∀ r, recvmsg32 g h r ≠ none) ∧
    (WellFormed g h msgs → (SendRight g h msgs ↔ SendOk h.controllen msgs)) ∧
    (∀ r, 4 ∣ h.control → Carries h r msgs → (RecvRight h r msgs ↔ RecvOk h.controllen msgs)) ∧
    (WellFormed g h msgs → (RoundTrip g h msgs ↔
      SendOk h.controllen msgs ∧ ∀ msg ∈ msgs.dropLast, 4 ∣ msg.data.length)) :=
  ⟨sendmsg32_ne_none g h, recvmsg32_ne_none g h, fun hwf ↦ hwf.sendRight_iff,
    fun _ haligned hcarries ↦ hcarries.recvRight_iff haligned, fun hwf ↦ hwf.roundTrip_iff⟩

section Examples

/-- `SCM_RIGHTS` with file descriptors. -/
def rights (fds : List (BitVec 8)) : Message := ⟨1, 1, fds⟩

/-- A header with a control buffer at `0x1000`. -/
def header (controllen : ℕ) : Msghdr32 := ⟨0, 0, 0, 0, 0x1000, controllen, 0⟩

def twoFds : Message := rights [3, 0, 0, 0, 4, 0, 0, 0]

def oneFd : Message := rights [3, 0, 0, 0]

theorem wellFormed_twice (msg : Message) (hpad : 4 ∣ msg.data.length)
    (hsmall : msg.data.length < 2 ^ 16) :
    WellFormed (place32 (place32 (fun _ ↦ 0) 0x1000 msg) (0x1000 + align4 msg.len32) msg)
      (header (2 * msg.len32)) [msg, msg] := by
  have halign : align4 msg.len32 = msg.len32 := by
    rw [align4, Message.len32]
    omega
  have hlen : msg.len32 = 12 + msg.data.length := rfl
  have hsize : size32 [msg, msg] ≤ 2 * msg.len32 := by
    rw [size32_cons (List.cons_ne_nil _ _), size32]
    omega
  have hspace : 2 * msg.len32 ≤ space32 [msg, msg] := by
    rw [space32, space32, space32]
    omega
  have hbelow : 0x1000 + 2 * msg.len32 < 2 ^ 32 := by omega
  have hfirst : (place32 (place32 (fun _ ↦ 0) 0x1000 msg) (0x1000 + align4 msg.len32)
      msg).read 0x1000
      msg.len32 = msg.encode32 := by
    rw [← read_place32 (fun _ ↦ 0) 0x1000 msg]
    exact read_congr fun x _ hx ↦ place32_apply (.inl (by omega))
  have haligned : 4 ∣ 0x1000 := by decide
  have hhalf : 2 * msg.len32 < 2 ^ 31 := by omega
  exact ⟨⟨haligned, ⟨hfirst, read_place32 _ _ _, trivial⟩, hsize, hspace⟩, hbelow, hhalf⟩

/-- Two messages with two file descriptors each get through. -/
theorem lossless_twoFds : ∃ g, WellFormed g (header 40) [twoFds, twoFds] ∧
    SendRight g (header 40) [twoFds, twoFds] ∧ RoundTrip g (header 40) [twoFds, twoFds] := by
  have hwf := wellFormed_twice twoFds (by decide) (by decide)
  obtain ⟨-, -, hsend, -, htrip⟩ := lossless_iff _ (header 40) [twoFds, twoFds]
  have hok : SendOk 40 [twoFds, twoFds] := ⟨by decide, by decide, trivial⟩
  refine ⟨_, hwf, (hsend hwf).mpr hok, (htrip hwf).mpr ⟨hok, ?_⟩⟩
  decide

/-- Two messages with one file descriptor each do not: the second one has no place. -/
theorem not_lossless_oneFd : ∃ g, WellFormed g (header 32) [oneFd, oneFd] ∧
    ¬SendRight g (header 32) [oneFd, oneFd] := by
  have hwf := wellFormed_twice oneFd (by decide) (by decide)
  refine ⟨_, hwf, fun hright ↦ ?_⟩
  have hok : SendOk 32 [oneFd, oneFd] := hwf.sendRight_iff.mp hright
  exact absurd hok.1 (by decide)

end Examples

end Socket32

end Felix86
