import Felix86.Lib.Layers
import Felix86.Common.Elf

/-!
# The image of a loaded file

Each segment is a layer over memory: whole pages, with the bytes of the file, zeros after them and,
in the last page of a segment that is not writable, whatever the file has there. A later segment
hides the pages of an earlier one that it shares.

`load_iff` says when the image is what the headers ask for: every segment fits into the address
space and below the end of a segment with file bytes, and the last segment over each byte supplies
it.
-/

namespace Felix86

namespace Elf

variable {taskSize : ℕ} {host : Host}

/-! ## Pages -/

theorem toNat_pageOffset (x : U64) : (pageOffset x).toNat = x.toNat % 4096 :=
  Riscv.toNat_and_mask x (show 12 ≤ 64 by decide)

theorem toNat_pageStart (x : U64) : (pageStart x).toNat = pageDown x.toNat := by
  have hmask : (x &&& 4095).toNat = x.toNat % 4096 := toNat_pageOffset x
  rw [pageStart, Riscv.toNat_and_not, hmask, pageDown]
  omega

theorem toNat_pageAlign {x : U64} (h : x.toNat ≤ 2 ^ 63) :
    (pageAlign x).toNat = pageUp x.toNat := by
  have hadd : (x + 4095).toNat = x.toNat + 4095 := by
    rw [BitVec.toNat_add]
    exact Nat.mod_eq_of_lt (by change x.toNat + 4095 < 2 ^ 64; omega)
  have hstart := toNat_pageStart (x + 4095)
  rw [pageStart, hadd] at hstart
  exact hstart

theorem pageUp_mono {n k : ℕ} (h : n ≤ k) : pageUp n ≤ pageUp k := by
  rw [pageUp, pageUp]
  omega

/-! ## What the operations on memory do to it -/

namespace Memory

variable {m m' : Memory taskSize} {addr size : ℕ} {prot : Prot} {value : ℕ → Option (BitVec 8)}

theorem lt_of_value {a : ℕ} (h : m.value a ≠ none) : a < taskSize :=
  m.lt_taskSize a fun hnone ↦ h (by rw [Memory.value, hnone]; rfl)

theorem map_spec (h : m.map addr size prot value = some m') :
    addr % 4096 = 0 ∧ size ≠ 0 ∧ addr + pageUp size ≤ taskSize ∧
      ∀ a, m'.value a = if addr ≤ a ∧ a < addr + pageUp size then value a else m.value a := by
  rw [Memory.map] at h
  split at h
  · next hmap =>
    cases h
    refine ⟨hmap.1, hmap.2.1, hmap.2.2, fun a ↦ ?_⟩
    by_cases ha : addr ≤ a ∧ a < addr + pageUp size
    · simp [Memory.value, ha]
    · simp only [Memory.value, if_neg ha]
  · cases h

theorem zero_spec {n : ℕ} (h : m.zero addr n = some m') (a : ℕ) :
    m'.value a = if addr ≤ a ∧ a < addr + n then some 0 else m.value a := by
  rw [Memory.zero] at h
  split at h
  · next hwritable =>
    cases h
    by_cases ha : addr ≤ a ∧ a < addr + n
    · have hcell := hwritable (a - addr) (by omega)
      rw [Nat.add_sub_cancel' ha.1] at hcell
      obtain ⟨c, hc, -⟩ := (Option.any_eq_true _ _).1 hcell
      simp [Memory.value, ha, hc]
    · simp only [Memory.value, if_neg ha]
  · cases h

end Memory

/-! ## Segments as layers -/

/-- The program headers that are loaded. -/
def loads (phdrs : List Phdr) : List Phdr := phdrs.filter fun phdr ↦ phdr.type = PT_LOAD

namespace Phdr

def start (base : U64) (phdr : Phdr) : ℕ := (base + phdr.vaddr).toNat

/-- The bytes of a segment, in the file or not. -/
def extent (phdr : Phdr) : ℕ := max phdr.filesz.toNat phdr.memsz.toNat

def layer (file : Bytes) (base : U64) (phdr : Phdr) : Layer ℕ (Option (BitVec 8)) where
  covers a := pageDown (phdr.start base) ≤ a ∧ a < pageUp (phdr.start base + phdr.extent)
  content a :=
    if a < pageUp (phdr.start base + phdr.filesz.toNat) then
      if phdr.filesz < phdr.memsz ∧ phdr.prot.write ∧ phdr.start base + phdr.filesz.toNat ≤ a then
        some 0
      else fileByte file (phdr.offset.toNat + a - phdr.start base)
    else some 0

/-- What the headers ask for. -/
def wanted (file : Bytes) (base : U64) (phdr : Phdr) (a : ℕ) : Option (BitVec 8) :=
  if a < phdr.start base + phdr.filesz.toNat then file[phdr.offset.toNat + (a - phdr.start base)]?
  else some 0

end Phdr

variable {file : Bytes} {base : U64} {m m' : Memory taskSize} {phdr : Phdr}

theorem start_mod (phdr : Phdr) (hbase : base.toNat % 4096 = 0) :
    phdr.start base % 4096 = phdr.vaddr.toNat % 4096 := by
  rw [Phdr.start, BitVec.toNat_add]
  omega

theorem toNat_segmentBase (hbase : base.toNat % 4096 = 0) :
    (base + pageStart phdr.vaddr).toNat = pageDown (phdr.start base) := by
  rw [BitVec.toNat_add, toNat_pageStart, Phdr.start, BitVec.toNat_add, pageDown, pageDown]
  omega

/-- The pages of the file. -/
theorem mapSegment_value (hbase : base.toNat % 4096 = 0)
    (hsize : phdr.filesz.toNat + 4096 ≤ 2 ^ 64) (h : mapSegment file base m phdr = some m')
    (a : ℕ) :
    m'.value a =
      if pageDown (phdr.start base) ≤ a ∧ a < pageUp (phdr.start base + phdr.filesz.toNat) then
        fileByte file (phdr.offset.toNat + a - phdr.start base)
      else m.value a := by
  have hmod := start_mod phdr hbase
  have hsegmentSize : (phdr.filesz + pageOffset phdr.vaddr).toNat =
      phdr.filesz.toNat + phdr.start base % 4096 := by
    rw [BitVec.toNat_add, toNat_pageOffset, hmod]
    exact Nat.mod_eq_of_lt (by omega)
  rw [mapSegment] at h
  split at h
  · rw [Memory.mapFile] at h
    split at h
    · next hoffset =>
      obtain ⟨-, -, -, hvalue⟩ := Memory.map_spec h
      -- an aligned offset has not wrapped
      have hsub : (phdr.offset - pageOffset phdr.vaddr).toNat =
          phdr.offset.toNat - phdr.start base % 4096 ∧
            phdr.start base % 4096 ≤ phdr.offset.toNat := by
        rw [BitVec.toNat_sub, toNat_pageOffset, ← hmod] at hoffset ⊢
        have := phdr.offset.isLt
        omega
      rw [hvalue, toNat_segmentBase hbase, hsegmentSize, hsub.1]
      have hend : pageDown (phdr.start base) +
          pageUp (phdr.filesz.toNat + phdr.start base % 4096) =
            pageUp (phdr.start base + phdr.filesz.toNat) := by
        rw [pageDown, pageUp, pageUp]
        omega
      rw [hend]
      by_cases ha : pageDown (phdr.start base) ≤ a ∧
          a < pageUp (phdr.start base + phdr.filesz.toNat)
      · rw [if_pos ha, if_pos ha]
        congr 1
        rw [pageDown] at ha ⊢
        omega
      · rw [if_neg ha, if_neg ha]
    · cases h
  · next hzero =>
    split at h
    · cases h
    · cases h
      -- there are no file bytes, and the segment starts with a page
      have hnone : phdr.filesz.toNat + phdr.start base % 4096 = 0 := by
        rw [← hsegmentSize, not_not.1 hzero]
        rfl
      refine (if_neg ?_).symm
      rw [pageDown, pageUp]
      omega

section Bss

variable (hfits : phdr.start base + phdr.extent ≤ 2 ^ 63) (hlt : phdr.filesz < phdr.memsz)

include hfits

theorem toNat_bssStart : (phdr.bssStart base).toNat = phdr.start base + phdr.filesz.toNat := by
  rw [Phdr.extent] at hfits
  rw [Phdr.bssStart, BitVec.toNat_add]
  exact Nat.mod_eq_of_lt (by change phdr.start base + _ < _; omega)

theorem toNat_bssPageStart :
    (phdr.bssPageStart base).toNat = pageUp (phdr.start base + phdr.filesz.toNat) := by
  have hstart := toNat_bssStart hfits
  rw [Phdr.extent] at hfits
  rw [Phdr.bssPageStart, toNat_pageAlign (by omega), hstart]

theorem toNat_bssPageEnd :
    (phdr.bssPageEnd base).toNat = pageUp (phdr.start base + phdr.memsz.toNat) := by
  rw [Phdr.extent] at hfits
  have hend : (base + phdr.vaddr + phdr.memsz).toNat = phdr.start base + phdr.memsz.toNat := by
    rw [BitVec.toNat_add]
    exact Nat.mod_eq_of_lt (by change phdr.start base + _ < _; omega)
  rw [Phdr.bssPageEnd, toNat_pageAlign (by omega), hend]

theorem zeroRest_value (h : zeroRest base m phdr = some m') (a : ℕ) :
    m'.value a =
      if phdr.prot.write ∧ phdr.start base + phdr.filesz.toNat ≤ a ∧
          a < pageUp (phdr.start base + phdr.filesz.toNat) then some 0
      else m.value a := by
  have hstart := toNat_bssStart hfits
  have hpage := toNat_bssPageStart hfits
  have hle : phdr.start base + phdr.filesz.toNat ≤
      pageUp (phdr.start base + phdr.filesz.toNat) := by
    rw [pageUp]
    omega
  have hsize : (phdr.bssPageStart base - phdr.bssStart base).toNat =
      pageUp (phdr.start base + phdr.filesz.toNat) - (phdr.start base + phdr.filesz.toNat) := by
    rw [BitVec.toNat_sub_of_le (by rw [BitVec.le_def]; omega), hpage, hstart]
  rw [zeroRest] at h
  by_cases hwrite : phdr.prot.write
  · rw [if_pos hwrite] at h
    rw [Memory.zero_spec h, hstart, hsize, Nat.add_sub_cancel' hle]
    simp [hwrite]
  · rw [if_neg hwrite] at h
    cases h
    simp [hwrite]

include hlt

theorem mapExcess_value (h : mapExcess base m phdr = some m') (a : ℕ) :
    m'.value a =
      if pageUp (phdr.start base + phdr.filesz.toNat) ≤ a ∧
          a < pageUp (phdr.start base + phdr.memsz.toNat) then some 0
      else m.value a := by
  have hstart := toNat_bssPageStart hfits
  have hend := toNat_bssPageEnd hfits
  have hlt' : phdr.filesz.toNat < phdr.memsz.toNat := hlt
  have hle : pageUp (phdr.start base + phdr.filesz.toNat) ≤
      pageUp (phdr.start base + phdr.memsz.toNat) := pageUp_mono (by omega)
  have hsize : (phdr.bssPageEnd base - phdr.bssPageStart base).toNat =
      pageUp (phdr.start base + phdr.memsz.toNat) -
        pageUp (phdr.start base + phdr.filesz.toNat) := by
    rw [BitVec.toNat_sub_of_le (by rw [BitVec.le_def]; omega), hend, hstart]
  rw [mapExcess] at h
  by_cases hne : phdr.bssPageStart base ≠ phdr.bssPageEnd base
  · rw [if_pos hne] at h
    obtain ⟨m₁, hm₁, h⟩ := Option.bind_eq_some_iff.1 h
    obtain ⟨-, -, -, hvalue₁⟩ := Memory.map_spec hm₁
    rw [Memory.zero_spec h, hvalue₁, hstart, hsize, Nat.add_sub_cancel' hle]
    by_cases ha : pageUp (phdr.start base + phdr.filesz.toNat) ≤ a ∧
        a < pageUp (phdr.start base + phdr.memsz.toNat)
    · rw [if_pos ha, if_pos ha]
    · have hpages : pageUp (pageUp (phdr.start base + phdr.memsz.toNat) -
          pageUp (phdr.start base + phdr.filesz.toNat)) =
            pageUp (phdr.start base + phdr.memsz.toNat) -
              pageUp (phdr.start base + phdr.filesz.toNat) := by
        simp only [pageUp]
        omega
      rw [if_neg ha, if_neg ha, hpages, Nat.add_sub_cancel' hle, if_neg ha]
  · rw [if_neg hne] at h
    cases h
    -- both ends are in the same page
    have heq := congrArg BitVec.toNat (not_not.1 hne)
    rw [hstart, hend] at heq
    rw [if_neg (by omega)]

/-- Zeros in the last page of the file and after it. -/
theorem mapBss_value (h : mapBss base m phdr = some m') (a : ℕ) :
    m'.value a =
      if pageUp (phdr.start base + phdr.filesz.toNat) ≤ a ∧
          a < pageUp (phdr.start base + phdr.memsz.toNat) then some 0
      else if phdr.prot.write ∧ phdr.start base + phdr.filesz.toNat ≤ a ∧
          a < pageUp (phdr.start base + phdr.filesz.toNat) then some 0
      else m.value a := by
  rw [mapBss, if_pos hlt] at h
  obtain ⟨m₁, hm₁, h⟩ := Option.bind_eq_some_iff.1 h
  rw [mapExcess_value hfits hlt h, zeroRest_value hfits hm₁]

end Bss

theorem paint_layer (file : Bytes) (base : U64) (phdr : Phdr) (f : ℕ → Option (BitVec 8)) (a : ℕ) :
    (phdr.layer file base).paint f a =
      if pageDown (phdr.start base) ≤ a ∧ a < pageUp (phdr.start base + phdr.extent) then
        if a < pageUp (phdr.start base + phdr.filesz.toNat) then
          if phdr.filesz < phdr.memsz ∧ phdr.prot.write ∧
              phdr.start base + phdr.filesz.toNat ≤ a then some 0
          else fileByte file (phdr.offset.toNat + a - phdr.start base)
        else some 0
      else f a := by
  simp only [Layer.paint, Phdr.layer, decide_eq_true_eq]

/-- Loading a segment puts its layer over memory. -/
theorem loadSegment_value (hbase : base.toNat % 4096 = 0) (hload : phdr.type = PT_LOAD)
    (hfits : 0 < phdr.extent → phdr.start base + phdr.extent ≤ 2 ^ 63)
    (h : loadSegment file base m phdr = some m') :
    m'.value = (phdr.layer file base).paint m.value := by
  funext a
  rw [loadSegment, if_pos hload] at h
  obtain ⟨m₁, hm₁, h⟩ := Option.bind_eq_some_iff.1 h
  have hfilesz : phdr.filesz.toNat + 4096 ≤ 2 ^ 64 := by
    rw [Phdr.extent] at hfits
    omega
  have hvalue₁ := mapSegment_value hbase hfilesz hm₁ a
  have hdown : pageDown (phdr.start base) ≤ phdr.start base := Nat.div_mul_le_self _ _
  have hup : phdr.start base + phdr.filesz.toNat ≤
      pageUp (phdr.start base + phdr.filesz.toNat) := by
    rw [pageUp]
    omega
  rw [paint_layer]
  by_cases hlt : phdr.filesz < phdr.memsz
  · have hlt' : phdr.filesz.toNat < phdr.memsz.toNat := hlt
    have hmax : phdr.extent = phdr.memsz.toNat := Nat.max_eq_right hlt'.le
    have hle : pageUp (phdr.start base + phdr.filesz.toNat) ≤
        pageUp (phdr.start base + phdr.memsz.toNat) := pageUp_mono (by omega)
    rw [mapBss_value (hfits (by omega)) hlt h, hvalue₁, hmax]
    by_cases hend : a < pageUp (phdr.start base + phdr.filesz.toNat)
    · have hfile : ¬ (pageUp (phdr.start base + phdr.filesz.toNat) ≤ a ∧
          a < pageUp (phdr.start base + phdr.memsz.toNat)) := fun hand ↦ Nat.not_lt.2 hand.1 hend
      rw [if_neg hfile, if_pos hend]
      by_cases hstart : pageDown (phdr.start base) ≤ a
      · rw [if_pos (And.intro hstart hend), if_pos (And.intro hstart (hend.trans_le hle))]
        by_cases hwrite : phdr.prot.write ∧ phdr.start base + phdr.filesz.toNat ≤ a
        · rw [if_pos ⟨hwrite.1, hwrite.2, hend⟩, if_pos ⟨hlt, hwrite⟩]
        · rw [if_neg fun hand ↦ hwrite ⟨hand.1, hand.2.1⟩, if_neg fun hand ↦ hwrite hand.2]
      · have hbefore : ¬ (phdr.prot.write ∧ phdr.start base + phdr.filesz.toNat ≤ a ∧
            a < pageUp (phdr.start base + phdr.filesz.toNat)) := by omega
        rw [if_neg hbefore, if_neg fun hand ↦ hstart hand.1, if_neg fun hand ↦ hstart hand.1]
    · rw [if_neg hend]
      by_cases hexcess : a < pageUp (phdr.start base + phdr.memsz.toNat)
      · rw [if_pos (And.intro (Nat.not_lt.1 hend) hexcess),
          if_pos (And.intro (show pageDown (phdr.start base) ≤ a by omega) hexcess)]
      · rw [if_neg fun hand ↦ hexcess hand.2, if_neg fun hand ↦ hend hand.2.2,
          if_neg fun hand ↦ hend hand.2, if_neg fun hand ↦ hexcess hand.2]
  · have hge : phdr.memsz.toNat ≤ phdr.filesz.toNat := Nat.not_lt.1 hlt
    have hmax : phdr.extent = phdr.filesz.toNat := Nat.max_eq_left hge
    rw [mapBss, if_neg hlt] at h
    cases h
    rw [hvalue₁, hmax]
    by_cases hcovers : pageDown (phdr.start base) ≤ a ∧
        a < pageUp (phdr.start base + phdr.filesz.toNat)
    · rw [if_pos hcovers, if_pos hcovers, if_pos hcovers.2, if_neg fun hand ↦ hlt hand.1]
    · rw [if_neg hcovers, if_neg hcovers]

/-! ## The whole image -/

def layers (file : Bytes) (base : U64) (phdrs : List Phdr) : List (Layer ℕ (Option (BitVec 8))) :=
  (loads phdrs).map (Phdr.layer file base)

/-- Every segment ends in the address space. -/
def Fits (taskSize : ℕ) (base : U64) (phdrs : List Phdr) : Prop :=
  ∀ phdr ∈ loads phdrs, 0 < phdr.extent →
    base.toNat + phdr.vaddr.toNat + phdr.extent ≤ taskSize

theorem start_eq (htask : taskSize ≤ 2 ^ 63)
    (h : base.toNat + phdr.vaddr.toNat + phdr.extent ≤ taskSize) :
    phdr.start base = base.toNat + phdr.vaddr.toNat := by
  rw [Phdr.start, BitVec.toNat_add]
  exact Nat.mod_eq_of_lt (by omega)

theorem mem_loads {phdrs : List Phdr} :
    phdr ∈ loads phdrs ↔ phdr ∈ phdrs ∧ phdr.type = PT_LOAD := by
  simp [loads]

/-- The segments one after the other. -/
theorem foldlM_loadSegment_value {phdrs : List Phdr} (htask : taskSize ≤ 2 ^ 63)
    (hbase : base.toNat % 4096 = 0) (hfits : Fits taskSize base phdrs)
    (h : phdrs.foldlM (loadSegment file base) m = some m') :
    m'.value = Layer.paintAll (layers file base phdrs) m.value := by
  induction phdrs generalizing m with
  | nil =>
    cases h
    rfl
  | cons phdr rest ih =>
    rw [List.foldlM_cons] at h
    obtain ⟨m₁, hm₁, h⟩ := Option.bind_eq_some_iff.1 h
    have hrest : Fits taskSize base rest := fun phdr' hphdr' ↦
      hfits phdr' (mem_loads.2 ⟨List.mem_cons_of_mem _ (mem_loads.1 hphdr').1,
        (mem_loads.1 hphdr').2⟩)
    rw [ih hrest h]
    by_cases hload : phdr.type = PT_LOAD
    · have hstart : 0 < phdr.extent → phdr.start base + phdr.extent ≤ 2 ^ 63 := by
        intro hpos
        have hphdr := hfits phdr (mem_loads.2 ⟨List.mem_cons_self, hload⟩) hpos
        rw [start_eq htask hphdr]
        omega
      have hlayers : layers file base (phdr :: rest) =
          phdr.layer file base :: layers file base rest := by
        simp [layers, loads, hload]
      rw [hlayers, loadSegment_value hbase hload hstart hm₁]
      rfl
    · have hlayers : layers file base (phdr :: rest) = layers file base rest := by
        simp [layers, loads, hload]
      rw [loadSegment, if_neg hload] at hm₁
      cases hm₁
      rw [hlayers]

/-! ### The end of the segments -/

/-- The highest address is the end of a segment with file bytes. -/
theorem range_highest {phdrs : List Phdr}
    (h : ∀ phdr ∈ loads phdrs, phdr.filesz ≠ 0 → phdr.vaddr.toNat + phdr.memsz.toNat < 2 ^ 64)
    (n : ℕ) :
    n ≤ pageUp (range phdrs).highest.toNat ↔
      n = 0 ∨ ∃ phdr ∈ loads phdrs, phdr.filesz ≠ 0 ∧
        n ≤ pageUp (phdr.vaddr.toNat + phdr.memsz.toNat) := by
  have hgeneral : ∀ r : Range, n ≤ pageUp (phdrs.foldl Range.add r).highest.toNat ↔
      n ≤ pageUp r.highest.toNat ∨ ∃ phdr ∈ loads phdrs, phdr.filesz ≠ 0 ∧
        n ≤ pageUp (phdr.vaddr.toNat + phdr.memsz.toNat) := by
    intro r
    induction phdrs generalizing r with
    | nil => simp [loads]
    | cons phdr rest ih =>
      have hrest : ∀ phdr' ∈ loads rest, phdr'.filesz ≠ 0 →
          phdr'.vaddr.toNat + phdr'.memsz.toNat < 2 ^ 64 := fun phdr' hphdr' ↦
        h phdr' (mem_loads.2
          ⟨List.mem_cons_of_mem _ (mem_loads.1 hphdr').1, (mem_loads.1 hphdr').2⟩)
      rw [List.foldl_cons, ih hrest]
      by_cases hload : phdr.type = PT_LOAD
      · have hloads : loads (phdr :: rest) = phdr :: loads rest := by simp [loads, hload]
        rw [hloads, List.exists_mem_cons_iff, ← or_assoc]
        refine or_congr_left ?_
        by_cases hfile : phdr.filesz = 0
        · simp [Range.add, hload, hfile]
        · have hend : (phdr.vaddr + phdr.memsz).toNat = phdr.vaddr.toNat + phdr.memsz.toNat := by
            rw [BitVec.toNat_add]
            exact Nat.mod_eq_of_lt (h phdr (mem_loads.2 ⟨List.mem_cons_self, hload⟩) hfile)
          rw [Range.add, if_pos hload, if_neg hfile]
          change n ≤ pageUp (if phdr.vaddr + phdr.memsz > r.highest then phdr.vaddr + phdr.memsz
            else r.highest).toNat ↔ _
          by_cases hgt : phdr.vaddr + phdr.memsz > r.highest
          · have hlt : r.highest.toNat < (phdr.vaddr + phdr.memsz).toNat := hgt
            have hmono := pageUp_mono hlt.le
            rw [if_pos hgt, hend]
            rw [hend] at hmono
            exact ⟨fun hn ↦ .inr ⟨hfile, hn⟩, fun hn ↦ hn.elim hmono.trans' And.right⟩
          · have hle : (phdr.vaddr + phdr.memsz).toNat ≤ r.highest.toNat := Nat.not_lt.1 hgt
            have hmono := pageUp_mono hle
            rw [if_neg hgt]
            rw [hend] at hmono
            exact ⟨.inl, fun hn ↦ hn.elim id fun hn ↦ hn.2.trans hmono⟩
      · have hloads : loads (phdr :: rest) = loads rest := by simp [loads, hload]
        rw [hloads, Range.add, if_neg hload]
  rw [range, hgeneral]
  simp [pageUp]

/-! ## What the headers ask for -/

/-- The place of the range of a position independent file. -/
def reservation (base highest : U64) : Layer ℕ (Option (BitVec 8)) where
  covers a := base.toNat ≤ a ∧ a < base.toNat + pageUp highest.toNat
  content _ := some 0

/-- Everything that is put over memory, in order. -/
def allLayers (file : Bytes) (ehdr : Ehdr) (phdrs : List Phdr) (base : U64) :
    List (Layer ℕ (Option (BitVec 8))) :=
  (if ehdr.type = ET_DYN then [reservation base (range phdrs).highest] else []) ++
    layers file base phdrs

/-- The last layer over a place supplies a byte, or memory has it where there is none. -/
def Supplies (layers : List (Layer ℕ (Option (BitVec 8)))) (before : ℕ → Option (BitVec 8)) (a : ℕ)
    (byte : Option (BitVec 8)) : Prop :=
  match Layer.seen layers a with
  | some top => top.content a = byte
  | none => before a = byte

theorem paintAll_eq_iff {layers : List (Layer ℕ (Option (BitVec 8)))}
    {before : ℕ → Option (BitVec 8)}
    {a : ℕ} {byte : Option (BitVec 8)} :
    Layer.paintAll layers before a = byte ↔ Supplies layers before a byte := by
  rw [Supplies, Layer.paintAll_apply]
  cases Layer.seen layers a <;> rfl

/-- A loaded file is in memory as its headers say. -/
structure Correct (gMode32 : Bool) (file : Bytes) (ehdr : Ehdr) (phdrs : List Phdr)
    (q : Process host)
    (l : Loaded) : Prop where
  data : ∀ phdr ∈ loads phdrs, ∀ k < phdr.filesz.toNat,
    ∃ byte, file[phdr.offset.toNat + k]? = some byte ∧
      q.mem.value (l.programBase.toNat + phdr.vaddr.toNat + k) = some byte
  bss : ∀ phdr ∈ loads phdrs, ∀ k, phdr.filesz.toNat ≤ k → k < phdr.memsz.toNat →
    q.mem.value (l.programBase.toNat + phdr.vaddr.toNat + k) = some 0
  reserved : ehdr.type = ET_DYN → ∀ phdr ∈ loads phdrs, 0 < phdr.extent →
    phdr.vaddr.toNat + phdr.extent ≤ pageUp (range phdrs).highest.toNat
  programEnd : ∀ phdr ∈ loads phdrs, 0 < phdr.extent →
    l.programBase.toNat + phdr.vaddr.toNat + phdr.extent ≤ q.programEnd.toNat
  headers : ∀ k < l.phnum.toNat * l.phent.toNat,
    q.mem.value (l.phdr.toNat + k) = file[tableStart gMode32 ehdr + k]?

/-- Some segment with file bytes has pages up to an address. -/
def ReachedByFile (phdrs : List Phdr) (n : ℕ) : Prop :=
  ∃ phdr ∈ loads phdrs, phdr.filesz ≠ 0 ∧ n ≤ pageUp (phdr.vaddr.toNat + phdr.memsz.toNat)

/-- The conditions on the headers, the file and the memory before loading. -/
structure Sound (gMode32 : Bool) (file : Bytes) (ehdr : Ehdr) (phdrs : List Phdr) (base : U64)
    (p : Process host) : Prop where
  fits : Fits host.taskSize base phdrs
  /-- The bytes of a segment are in the file, and each is supplied by the last segment over it. -/
  data : ∀ phdr ∈ loads phdrs, ∀ k < phdr.filesz.toNat, phdr.offset.toNat + k < file.length ∧
    Supplies (allLayers file ehdr phdrs base) p.mem.value
      (base.toNat + phdr.vaddr.toNat + k) file[phdr.offset.toNat + k]?
  bss : ∀ phdr ∈ loads phdrs, ∀ k, phdr.filesz.toNat ≤ k → k < phdr.memsz.toNat →
    Supplies (allLayers file ehdr phdrs base) p.mem.value
      (base.toNat + phdr.vaddr.toNat + k) (some 0)
  /-- No segment ends beyond the pages of all segments with file bytes. -/
  reserved : ehdr.type = ET_DYN → ∀ phdr ∈ loads phdrs, 0 < phdr.extent →
    ReachedByFile phdrs (phdr.vaddr.toNat + phdr.extent)
  programEnd : ∀ phdr ∈ loads phdrs, 0 < phdr.extent →
    base.toNat + phdr.vaddr.toNat + phdr.extent ≤ p.programEnd.toNat ∨
      ReachedByFile phdrs (phdr.vaddr.toNat + phdr.extent)
  headers : ∀ k < ehdr.phnum.toNat * ehdr.phentsize.toNat,
    Supplies (allLayers file ehdr phdrs base) p.mem.value
      ((base + (range phdrs).lowest + ehdr.phoff).toNat + k) file[tableStart gMode32 ehdr + k]?

/-! ## Loading -/

section Loading

variable {gMode32 : Bool} {baseHint : U64} {p q : Process host} {l : Loaded} {ehdr : Ehdr}
  {phdrs : List Phdr}

/-- Reserving the range of a position independent file. -/
theorem reserve_spec {m' : Memory host.taskSize}
    (h : reserve baseHint ehdr (range phdrs).highest p.mem = some (base, m')) :
    base.toNat % 4096 = 0 ∧ (ehdr.type ≠ ET_DYN → base = 0) ∧
      (ehdr.type = ET_DYN → base.toNat + pageUp (range phdrs).highest.toNat ≤ host.taskSize) ∧
      m'.value = Layer.paintAll
        (if ehdr.type = ET_DYN then [reservation base (range phdrs).highest] else [])
        p.mem.value := by
  rw [reserve] at h
  split at h
  · cases h
  · split at h
    · next hdyn =>
      obtain ⟨place, hplace, h⟩ := Option.bind_eq_some_iff.1 h
      obtain ⟨m₁, hm₁, h⟩ := Option.bind_eq_some_iff.1 h
      cases h
      obtain ⟨-, -, hle, hvalue⟩ := Memory.map_spec hm₁
      refine ⟨host.place_aligned hplace, fun hne ↦ absurd hdyn hne, fun _ ↦ hle, ?_⟩
      funext a
      rw [hvalue, if_pos hdyn]
      simp only [Layer.paintAll, List.foldl_cons, List.foldl_nil, Layer.paint, reservation,
        decide_eq_true_eq]
    · next hexec =>
      cases h
      exact ⟨rfl, fun _ ↦ rfl, fun hdyn ↦ absurd hdyn hexec, by rw [if_neg hexec]; rfl⟩

/-- What loading leaves if every segment fits. -/
theorem load_spec (hehdr : checkEhdr gMode32 file = some ehdr)
    (hphdrs : phdrTable gMode32 file ehdr = some phdrs)
    (h : load host gMode32 baseHint file p = some (q, l)) :
    (ehdr.type ≠ ET_DYN → l.programBase = 0) ∧
      (ehdr.type = ET_DYN →
        l.programBase.toNat + pageUp (range phdrs).highest.toNat ≤ host.taskSize) ∧
      l.phdr = l.programBase + (range phdrs).lowest + ehdr.phoff ∧
      l.phnum = ehdr.phnum ∧ l.phent = ehdr.phentsize ∧
      q.programEnd.toNat = max p.programEnd.toNat
        (l.programBase + pageAlign (range phdrs).highest).toNat ∧
      (Fits host.taskSize l.programBase phdrs → q.mem.value =
        Layer.paintAll (allLayers file ehdr phdrs l.programBase) p.mem.value) := by
  rw [load, hehdr, Option.bind_eq_bind, Option.bind_some, hphdrs, Option.bind_eq_bind,
    Option.bind_some] at h
  obtain ⟨⟨base, m₁⟩, hreserve, h⟩ := Option.bind_eq_some_iff.1 h
  obtain ⟨m₂, hm₂, h⟩ := Option.bind_eq_some_iff.1 h
  cases h
  obtain ⟨haligned, hexec, hdyn, hvalue⟩ := reserve_spec hreserve
  refine ⟨hexec, hdyn, rfl, rfl, rfl, ?_, fun hfits ↦ ?_⟩
  · change (if base + pageAlign (range phdrs).highest < p.programEnd then p.programEnd
      else base + pageAlign (range phdrs).highest).toNat = _
    by_cases hlt : base + pageAlign (range phdrs).highest < p.programEnd
    · have hlt' : (base + pageAlign (range phdrs).highest).toNat < p.programEnd.toNat := hlt
      rw [if_pos hlt, max_eq_left hlt'.le]
    · have hge : p.programEnd.toNat ≤ (base + pageAlign (range phdrs).highest).toNat :=
        Nat.not_lt.1 hlt
      rw [if_neg hlt, max_eq_right hge]
  · change m₂.value = _
    rw [foldlM_loadSegment_value host.taskSize_le haligned hfits hm₂, hvalue, allLayers,
      Layer.paintAll, Layer.paintAll, Layer.paintAll, List.foldl_append]

/-- A correct image has each byte of its segments below the end of the address space. -/
theorem Correct.fits (h : Correct gMode32 file ehdr phdrs q l) :
    Fits host.taskSize l.programBase phdrs := by
  intro phdr hphdr hpos
  have hvalue : q.mem.value (l.programBase.toNat + phdr.vaddr.toNat + (phdr.extent - 1)) ≠
      none := by
    by_cases hfile : phdr.extent - 1 < phdr.filesz.toNat
    · obtain ⟨byte, -, hbyte⟩ := h.data phdr hphdr _ hfile
      rw [hbyte]
      exact Option.some_ne_none _
    · have hlt : phdr.extent - 1 < phdr.memsz.toNat := by
        rw [Phdr.extent] at hpos hfile ⊢
        omega
      rw [h.bss phdr hphdr _ (Nat.not_lt.1 hfile) hlt]
      exact Option.some_ne_none _
  have hlt := Memory.lt_of_value hvalue
  omega

theorem Fits.reachedByFile_iff (hfits : Fits host.taskSize base phdrs) {n : ℕ} (hn : 0 < n) :
    n ≤ pageUp (range phdrs).highest.toNat ↔ ReachedByFile phdrs n := by
  rw [range_highest, or_iff_right (Nat.ne_of_gt hn), ReachedByFile]
  intro phdr hphdr hfile
  have htask := host.taskSize_le
  have hne : phdr.filesz.toNat ≠ 0 := fun hzero ↦ hfile (BitVec.eq_of_toNat_eq hzero)
  have hphdr := hfits phdr hphdr (by rw [Phdr.extent]; omega)
  rw [Phdr.extent] at hphdr
  omega

theorem Fits.highest_le (hfits : Fits host.taskSize base phdrs) :
    (range phdrs).highest.toNat ≤ 2 ^ 63 := by
  by_contra hgt
  have hself : (range phdrs).highest.toNat ≤ pageUp (range phdrs).highest.toNat := by
    rw [pageUp]
    omega
  obtain ⟨phdr, hphdr, hfile, hle⟩ := (hfits.reachedByFile_iff (by omega)).1 hself
  have htask := host.taskSize_le
  have hne : phdr.filesz.toNat ≠ 0 := fun hzero ↦ hfile (BitVec.eq_of_toNat_eq hzero)
  have hphdr := hfits phdr hphdr (by rw [Phdr.extent]; omega)
  rw [Phdr.extent] at hphdr
  rw [pageUp] at hle
  omega

/-- The loaded image is the one that the headers ask for under exactly these conditions. -/
theorem load_iff (hehdr : checkEhdr gMode32 file = some ehdr)
    (hphdrs : phdrTable gMode32 file ehdr = some phdrs)
    (h : load host gMode32 baseHint file p = some (q, l)) :
    Correct gMode32 file ehdr phdrs q l ↔ Sound gMode32 file ehdr phdrs l.programBase p := by
  obtain ⟨hexec, hdyn, hphdr, hphnum, hphent, hend, hvalue⟩ := load_spec hehdr hphdrs h
  have hsupplies : ∀ (_ : Fits host.taskSize l.programBase phdrs) (a : ℕ)
    (byte : Option (BitVec 8)),
      q.mem.value a = byte ↔
        Supplies (allLayers file ehdr phdrs l.programBase) p.mem.value a byte := by
    intro hfits a byte
    rw [hvalue hfits, paintAll_eq_iff]
  have hprogramEnd : ∀ _ : Fits host.taskSize l.programBase phdrs,
      (l.programBase + pageAlign (range phdrs).highest).toNat =
        l.programBase.toNat + pageUp (range phdrs).highest.toNat := by
    intro hfits
    rw [BitVec.toNat_add, toNat_pageAlign hfits.highest_le]
    refine Nat.mod_eq_of_lt ?_
    by_cases htype : ehdr.type = ET_DYN
    · have hle := hdyn htype
      have htask := host.taskSize_le
      omega
    · have hle := pageUp_mono hfits.highest_le
      have hpow : pageUp (2 ^ 63) = 2 ^ 63 := rfl
      rw [hexec htype]
      change 0 + _ < _
      omega
  constructor
  · intro hcorrect
    have hfits := hcorrect.fits
    refine ⟨hfits, fun phdr hmem k hk ↦ ?_, fun phdr hmem k hlo hhi ↦ ?_,
      fun htype phdr hmem hpos ↦ ?_, fun phdr hmem hpos ↦ ?_, fun k hk ↦ ?_⟩
    · obtain ⟨byte, hbyte, hq⟩ := hcorrect.data phdr hmem k hk
      exact ⟨(List.getElem?_eq_some_iff.1 hbyte).1, (hsupplies hfits _ _).1 (hq.trans hbyte.symm)⟩
    · exact (hsupplies hfits _ _).1 (hcorrect.bss phdr hmem k hlo hhi)
    · exact (hfits.reachedByFile_iff (by omega)).1 (hcorrect.reserved htype phdr hmem hpos)
    · have hle := hcorrect.programEnd phdr hmem hpos
      rw [hend, hprogramEnd hfits, le_max_iff, Nat.add_assoc, Nat.add_le_add_iff_left] at hle
      rw [Nat.add_assoc]
      exact hle.imp_right (hfits.reachedByFile_iff (by omega)).1
    · have hbyte := hcorrect.headers k (by rw [hphnum, hphent]; exact hk)
      rw [hphdr] at hbyte
      exact (hsupplies hfits _ _).1 hbyte
  · intro hsound
    have hfits := hsound.fits
    refine ⟨fun phdr hmem k hk ↦ ?_, fun phdr hmem k hlo hhi ↦ ?_, fun htype phdr hmem hpos ↦ ?_,
      fun phdr hmem hpos ↦ ?_, fun k hk ↦ ?_⟩
    · obtain ⟨hlt, hbyte⟩ := hsound.data phdr hmem k hk
      exact ⟨_, List.getElem?_eq_getElem hlt,
        ((hsupplies hfits _ _).2 hbyte).trans (List.getElem?_eq_getElem hlt)⟩
    · exact (hsupplies hfits _ _).2 (hsound.bss phdr hmem k hlo hhi)
    · exact (hfits.reachedByFile_iff (by omega)).2 (hsound.reserved htype phdr hmem hpos)
    · rw [hend, hprogramEnd hfits, le_max_iff, Nat.add_assoc, Nat.add_le_add_iff_left]
      have hle := hsound.programEnd phdr hmem hpos
      rw [Nat.add_assoc] at hle
      exact hle.imp_right (hfits.reachedByFile_iff (by omega)).2
    · rw [hphnum, hphent] at hk
      rw [hphdr]
      exact (hsupplies hfits _ _).2 (hsound.headers k hk)

end Loading

/-! ### A segment that does not start with the file -/

/-- A program with one segment and its header right after the header of the file. -/
def smallFile (offset vaddr filesz : ℕ) : Bytes :=
  [0x7F, 0x45, 0x4C, 0x46, 2, 1, 1, 0] ++ Buffer.ofNat 8 0 ++
    Buffer.ofNat 2 2 ++ Buffer.ofNat 2 62 ++ Buffer.ofNat 4 1 ++ Buffer.ofNat 8 vaddr ++
    Buffer.ofNat 8 64 ++ Buffer.ofNat 8 0 ++ Buffer.ofNat 4 0 ++ Buffer.ofNat 2 64 ++
    Buffer.ofNat 2 56 ++ Buffer.ofNat 2 1 ++ Buffer.ofNat 6 0 ++
    Buffer.ofNat 4 1 ++ Buffer.ofNat 4 5 ++ Buffer.ofNat 8 offset ++ Buffer.ofNat 8 vaddr ++
    Buffer.ofNat 8 vaddr ++ Buffer.ofNat 8 filesz ++ Buffer.ofNat 8 filesz ++ Buffer.ofNat 8 4096

def smallEhdr (vaddr : U64) : Ehdr := ⟨2, 62, 1, vaddr, 64, 56, 1⟩

def smallPhdr (offset vaddr filesz : U64) : Phdr := ⟨1, 5, offset, vaddr, filesz, filesz⟩

def smallHost : Host where
  taskSize := 2 ^ 47
  taskSize_le := by decide
  place _ _ := none
  place_aligned h := by cases h

def emptyProcess : Process smallHost := ⟨⟨fun _ ↦ none, fun _ h ↦ absurd rfl h⟩, 0⟩

theorem load_iff_smallFile :
    ∃ q l, load smallHost false 0 (smallFile 0 0x400000 120) emptyProcess = some (q, l) ∧
      (Correct false (smallFile 0 0x400000 120)
        (smallEhdr 0x400000) [smallPhdr 0 0x400000 120] q l ↔
        Sound false (smallFile 0 0x400000 120) (smallEhdr 0x400000) [smallPhdr 0 0x400000 120]
          l.programBase emptyProcess) := by
  have hsome : (load smallHost false 0 (smallFile 0 0x400000 120) emptyProcess).isSome := by
    decide +kernel
  obtain ⟨⟨q, l⟩, hload⟩ := Option.isSome_iff_exists.1 hsome
  exact ⟨q, l, hload, load_iff (by decide +kernel) (by decide +kernel) hload⟩

/-- The segment starts at the program header, which is therefore not where it is looked for. -/
theorem not_correct_smallFile :
    ∃ q l, load smallHost false 0 (smallFile 64 0x400040 56) emptyProcess = some (q, l) ∧
      checkEhdr false (smallFile 64 0x400040 56) = some (smallEhdr 0x400040) ∧
      phdrTable false (smallFile 64 0x400040 56) (smallEhdr 0x400040) =
        some [smallPhdr 64 0x400040 56] ∧
      ¬ Correct false (smallFile 64 0x400040 56)
          (smallEhdr 0x400040) [smallPhdr 64 0x400040 56] q l := by
  have hvalue : (load smallHost false 0 (smallFile 64 0x400040 56) emptyProcess).map
      (fun r ↦ (r.1.mem.value r.2.phdr.toNat, r.2.phnum, r.2.phent)) =
        some (some 0, 1, 56) := by decide +kernel
  obtain ⟨⟨q, l⟩, hload, hql⟩ := Option.map_eq_some_iff.1 hvalue
  refine ⟨q, l, hload, by decide +kernel, by decide +kernel, fun hcorrect ↦ ?_⟩
  simp only [Prod.mk.injEq] at hql
  have hheader := hcorrect.headers 0 (by rw [hql.2.1, hql.2.2]; decide)
  rw [Nat.add_zero, hql.1] at hheader
  exact absurd hheader (by decide +kernel)

end Elf

end Felix86
