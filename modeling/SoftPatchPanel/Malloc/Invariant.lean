import SoftPatchPanel.Malloc.Chunks
import Mathlib.Data.List.Chain

/-!
# The invariant of the heaps

Between two calls the free lists of the heaps hold exactly the free elements, each in the list for its size, and no
two elements side by side are free (`Inv` with nothing taken out).  Inside of a call some elements are taken out of
the lists; each of the steps that the calls are made of says which (`Inv.remove`, `Inv.split`, `Inv.join`,
`Inv.insert`), and the busy elements that are not taken out stay as they are (`Frame`).
-/

namespace SoftPatchPanel.Malloc

open Lib

/-! ### No two side by side -/

/-- No two elements side by side have the property `f`. -/
def NoTwo (f : UInt64 → Prop) (xs : List UInt64) : Prop := xs.IsChain fun x y => ¬(f x ∧ f y)

section

variable {f g : UInt64 → Prop} {xs l mid r : List UInt64} {x : UInt64}

private theorem NoTwo.mono (h : NoTwo f xs) (hfg : ∀ x ∈ xs, g x → f x) : NoTwo g xs := by
  induction xs with
  | nil => exact List.isChain_nil
  | cons x xs ih =>
    rw [List.forall_mem_cons] at hfg
    rw [NoTwo, List.isChain_cons] at h ⊢
    refine ⟨fun y hy hxy => h.1 y hy ⟨hfg.1 hxy.1, hfg.2 y (List.mem_of_mem_head? hy) hxy.2⟩, ih h.2 hfg.2⟩

private theorem noTwo_of_none (h : ∀ x ∈ mid, ¬f x) : NoTwo f mid := by
  induction mid with
  | nil => exact List.isChain_nil
  | cons x xs ih =>
    rw [List.forall_mem_cons] at h
    exact List.isChain_cons.2 ⟨fun y _ hxy => h.1 hxy.1, ih h.2⟩

private theorem NoTwo.left (h : NoTwo f (l ++ r)) : NoTwo f l := (List.isChain_append.1 h).1

private theorem NoTwo.right (h : NoTwo f (l ++ r)) : NoTwo f r := (List.isChain_append.1 h).2.1

/-- Between two lists stand elements without the property. -/
private theorem NoTwo.replace (hl : NoTwo f l) (hr : NoTwo f r) (hmid : ∀ x ∈ mid, ¬f x) (hne : mid ≠ []) :
    NoTwo f (l ++ mid ++ r) := by
  refine List.isChain_append.2 ⟨List.isChain_append.2 ⟨hl, noTwo_of_none hmid, ?_⟩, hr, ?_⟩
  · exact fun a _ b hb hab => hmid b (List.mem_of_mem_head? hb) hab.2
  · intro a ha b _ hab
    rw [List.getLast?_append_of_ne_nil _ hne] at ha
    exact hmid a (List.mem_of_mem_getLast? ha) hab.1

/-- Between two lists stands one element with the property. -/
private theorem NoTwo.insert (hl : NoTwo f l) (hr : NoTwo f r) (hlast : ∀ a ∈ l.getLast?, ¬f a)
    (hhead : ∀ a ∈ r.head?, ¬f a) :
    NoTwo f (l ++ x :: r) := by
  refine List.isChain_append.2 ⟨hl, List.isChain_cons.2 ⟨fun b hb hab => hhead b hb hab.2, hr⟩, ?_⟩
  exact fun a ha b _ hab => hlast a ha hab.1

/-- The neighbours of an element with the property have it not. -/
theorem NoTwo.neighbours (h : NoTwo f (l ++ x :: r)) (hx : f x) : (∀ a ∈ l.getLast?, ¬f a) ∧ ∀ a ∈ r.head?, ¬f a := by
  obtain ⟨-, hr, hlast⟩ := List.isChain_append.1 h
  exact ⟨fun a ha hfa => hlast a ha x rfl ⟨hfa, hx⟩, fun a ha hfa => (List.isChain_cons.1 hr).1 a ha ⟨hx, hfa⟩⟩

end

/-! ### The invariant -/

/-- The free list of a free element. -/
def listOf (e : MallocElem) : Nat := mallocElemFreeListIndex (e.size - mallocElemHeaderLen)

/-- Free and in a free list, when the elements `out` have been taken out of the lists. -/
def Idle (c : MemConfig) (out : List UInt64) (x : UInt64) : Prop := (c.mem x).state = .elemFree ∧ x ∉ out

/-- The memory is cut into elements, of which the free ones are in the free lists, except for those in `out`. -/
structure Inv (c : MemConfig) (chunks : Nat × Memseg → List UInt64) (out : List UInt64) : Prop extends
    Shape c chunks where
  listed : ∀ h i x, x ∈ (c.mallocHeaps h).freeHead i ↔
    IsElem c chunks x ∧ Idle c out x ∧ (c.mem x).heap = h ∧ listOf (c.mem x) = i
  nodup : ∀ h i, ((c.mallocHeaps h).freeHead i).Nodup
  apart : ∀ p ∈ c.segs, NoTwo (Idle c out) (chunks p)

/-- There is a busy element at `x`. -/
def Busy (c : MemConfig) (chunks : Nat × Memseg → List UInt64) (x : UInt64) : Prop :=
  IsElem c chunks x ∧ (c.mem x).state = .elemBusy

/-- The busy elements that are not in `out` are the same, and are kept. -/
structure Frame (c : MemConfig) (chunks : Nat × Memseg → List UInt64) (c' : MemConfig)
    (chunks' : Nat × Memseg → List UInt64) (out : List UInt64) : Prop where
  busy : ∀ z ∉ out, Busy c' chunks' z ↔ Busy c chunks z
  kept : ∀ z ∉ out, Busy c chunks z → Kept c c' z

section

variable {c c' c₁ c₂ c₃ : MemConfig} {chunks ch₁ ch₂ ch₃ : Nat × Memseg → List UInt64} {out out' : List UInt64}
  {p : Nat × Memseg} {l r : List UInt64} {x y z : UInt64}

theorem Frame.trans (h : Frame c₁ ch₁ c₂ ch₂ out) (h' : Frame c₂ ch₂ c₃ ch₃ out) : Frame c₁ ch₁ c₃ ch₃ out where
  busy := fun z hz => (h'.busy z hz).trans (h.busy z hz)
  kept := fun z hz hb => (h.kept z hz hb).trans (h'.kept z hz ((h.busy z hz).2 hb))

theorem Frame.mono (h : Frame c₁ ch₁ c₂ ch₂ out) (hout : out ⊆ out') : Frame c₁ ch₁ c₂ ch₂ out' where
  busy := fun z hz => h.busy z fun hz' => hz (hout hz')
  kept := fun z hz => h.kept z fun hz' => hz (hout hz')

theorem Inv.dropOut (h : Inv c chunks (x :: out)) (hx : ¬(IsElem c chunks x ∧ (c.mem x).state = .elemFree)) :
    Inv c chunks out where
  toShape := h.toShape
  listed := by
    intro hp i z
    rw [h.listed]
    simp only [Idle, List.mem_cons, not_or]
    constructor
    · rintro ⟨h1, ⟨h2, -, h3⟩, h4⟩
      exact ⟨h1, ⟨h2, h3⟩, h4⟩
    · rintro ⟨h1, ⟨h2, h3⟩, h4⟩
      refine ⟨h1, ⟨h2, ?_, h3⟩, h4⟩
      rintro rfl
      exact hx ⟨h1, h2⟩
  nodup := h.nodup
  apart := by
    intro p hp
    refine (h.apart p hp).mono ?_
    rintro z hz ⟨h1, h2⟩
    refine ⟨h1, ?_⟩
    rw [List.mem_cons, not_or]
    refine ⟨?_, h2⟩
    rintro rfl
    exact hx ⟨⟨p, hp, hz⟩, h1⟩

theorem Inv.addOut (h : Inv c chunks out) (hx : (c.mem x).state ≠ .elemFree) : Inv c chunks (x :: out) where
  toShape := h.toShape
  listed := by
    intro hp i z
    rw [h.listed]
    simp only [Idle, List.mem_cons, not_or]
    constructor
    · rintro ⟨h1, ⟨h2, h3⟩, h4⟩
      refine ⟨h1, ⟨h2, ?_, h3⟩, h4⟩
      rintro rfl
      exact hx h2
    · rintro ⟨h1, ⟨h2, -, h3⟩, h4⟩
      exact ⟨h1, ⟨h2, h3⟩, h4⟩
  nodup := h.nodup
  apart := fun p hp => (h.apart p hp).mono fun z _ hz => ⟨hz.1, fun hmem => hz.2 (List.mem_cons_of_mem _ hmem)⟩

/-! ### The free lists -/

private theorem freeHead_elemFreeListRemove (c : MemConfig) (x : UInt64) (h i : Nat) :
    ((elemFreeListRemove c x).mallocHeaps h).freeHead i =
      if h = (c.mem x).heap then ((c.mallocHeaps h).freeHead i).erase x else (c.mallocHeaps h).freeHead i := by
  simp only [elemFreeListRemove, MemConfig.modifyHeap]
  by_cases hh : h = (c.mem x).heap
  · subst hh
    simp only [Function.update_self, ↓reduceIte]
  · simp only [Function.update_of_ne hh, hh, ↓reduceIte]

@[simp] theorem mem_elemFreeListRemove (c : MemConfig) (x : UInt64) : (elemFreeListRemove c x).mem = c.mem := rfl

theorem Inv.remove (h : Inv c chunks out) (x : UInt64) :
    Inv (elemFreeListRemove c x) chunks (x :: out) where
  toShape := ⟨h.segs, h.chunked⟩
  listed := by
    intro hp i z
    rw [freeHead_elemFreeListRemove]
    have hmem : (z ∈ if hp = (c.mem x).heap then ((c.mallocHeaps hp).freeHead i).erase x
        else (c.mallocHeaps hp).freeHead i) ↔ z ≠ x ∧ z ∈ (c.mallocHeaps hp).freeHead i := by
      split
      · exact (h.nodup hp i).mem_erase_iff
      · rename_i hne
        constructor
        · intro hz
          refine ⟨?_, hz⟩
          rintro rfl
          exact hne ((h.listed hp i z).1 hz).2.2.1.symm
        · exact And.right
    rw [hmem, h.listed]
    simp only [Idle, List.mem_cons, not_or]
    change _ ↔ IsElem c chunks z ∧ ((c.mem z).state = _ ∧ _ ∧ _) ∧ (c.mem z).heap = _ ∧ listOf (c.mem z) = _
    tauto
  nodup := by
    intro hp i
    rw [freeHead_elemFreeListRemove]
    split
    · exact (h.nodup hp i).erase x
    · exact h.nodup hp i
  apart := fun p hp => (h.apart p hp).mono fun z _ hz => ⟨hz.1, fun hmem => hz.2 (List.mem_cons_of_mem _ hmem)⟩

theorem frame_remove (c : MemConfig) (chunks : Nat × Memseg → List UInt64) (x : UInt64) (out : List UInt64) :
    Frame c chunks (elemFreeListRemove c x) chunks out :=
  ⟨fun _ _ => Iff.rfl, fun z _ _ => .of_mem (mem_elemFreeListRemove c x) z⟩

/-! ### Elements that are replaced -/

/-- An element belongs to one memseg. -/
private theorem Shape.seg_unique (h : Shape c chunks) {q : Nat × Memseg} (hp : p ∈ c.segs) (hq : q ∈ c.segs)
    (hz : z ∈ chunks p) (hz' : z ∈ chunks q) : p = q := by
  have h1 := h.bounds hp hz
  have h2 := h.bounds hq hz'
  have hpe := h.segs.endElem hp
  have hqe := h.segs.endElem hq
  exact h.segs.eq_of_meet hp hq (n := z.toNat) (by omega) (by omega)

theorem isElem_replace {old mid : List UInt64} (h : Shape c chunks) (hp : p ∈ c.segs)
    (hchunks : chunks p = l ++ old ++ r) (hsegs : c'.segs = c.segs) :
    IsElem c' (Function.update chunks p (l ++ mid ++ r)) z ↔ z ∈ mid ∨ IsElem c chunks z ∧ z ∉ old := by
  have hnodup := (h.chunked p hp).nodup
  rw [hchunks, List.nodup_append, List.nodup_append] at hnodup
  obtain ⟨⟨-, -, hlo⟩, -, hor⟩ := hnodup
  have hmem : z ∈ chunks p ↔ (z ∈ l ∨ z ∈ old) ∨ z ∈ r := by rw [hchunks, List.mem_append, List.mem_append]
  rw [IsElem, hsegs]
  constructor
  · rintro ⟨q, hq, hz⟩
    by_cases hqp : q = p
    · subst hqp
      rw [Function.update_self, List.mem_append, List.mem_append] at hz
      rcases hz with (hz | hz) | hz
      · exact Or.inr ⟨⟨q, hq, hmem.2 (Or.inl (Or.inl hz))⟩, fun ho => hlo z hz z ho rfl⟩
      · exact Or.inl hz
      · exact Or.inr ⟨⟨q, hq, hmem.2 (Or.inr hz)⟩,
          fun ho => hor z (List.mem_append_right _ ho) z hz rfl⟩
    · rw [Function.update_of_ne hqp] at hz
      exact Or.inr ⟨⟨q, hq, hz⟩, fun ho => hqp (h.seg_unique hq hp hz (hmem.2 (Or.inl (Or.inr ho))))⟩
  · rintro (hz | ⟨⟨q, hq, hz⟩, ho⟩)
    · exact ⟨p, hp, by simp [hz]⟩
    · by_cases hqp : q = p
      · subst hqp
        refine ⟨q, hq, ?_⟩
        rw [Function.update_self, List.mem_append, List.mem_append]
        have := hmem.1 hz
        tauto
      · exact ⟨q, hq, by rw [Function.update_of_ne hqp]; exact hz⟩

/-- Elements that are out of the lists are replaced by others that are out of the lists. -/
private theorem Inv.replace {old mid rest : List UInt64} {n : UInt64} (h : Inv c chunks out) (hp : p ∈ c.segs)
    (hchunks : chunks p = l ++ (x :: old) ++ r) (hplace : Place c p l (x :: old) r x n rest) (hw : Within c c' x n)
    (hshape : Shape c' (Function.update chunks p (l ++ mid ++ r))) (hheaps : c'.mallocHeaps = c.mallocHeaps)
    (hold : x :: old ⊆ out) (hne : mid ≠ []) (hmid : ∀ z ∈ mid, z ∈ x :: old ∨ ¬IsElem c chunks z)
    (hout : ∀ z, z ∈ out' ↔ z ∈ mid ∨ z ∈ out) :
    Inv c' (Function.update chunks p (l ++ mid ++ r)) out' ∧
      Frame c chunks c' (Function.update chunks p (l ++ mid ++ r)) out' := by
  have hiff : ∀ z, IsElem c' (Function.update chunks p (l ++ mid ++ r)) z ↔
      z ∈ mid ∨ IsElem c chunks z ∧ z ∉ x :: old := fun z => isElem_replace h.toShape hp hchunks hw.segs
  have hkept : ∀ z, IsElem c chunks z → z ∉ x :: old → Kept c c' z := fun z => h.toShape.kept hp hchunks hplace hw
  have hidle : ∀ z, Idle c' out' z → IsElem c' (Function.update chunks p (l ++ mid ++ r)) z →
      IsElem c chunks z ∧ z ∉ x :: old ∧ Idle c out z := by
    rintro z ⟨hfree, hz⟩ helem
    rw [hout, not_or] at hz
    rcases (hiff z).1 helem with hm | ⟨helem, ho⟩
    · exact absurd hm hz.1
    · exact ⟨helem, ho, by rw [← (hkept z helem ho).state]; exact hfree, hz.2⟩
  have hseg : c'.segs = c.segs := hw.segs
  refine ⟨⟨hshape, ?_, ?_, ?_⟩, ?_, ?_⟩
  · intro hp' i z
    rw [hheaps, h.listed]
    constructor
    · rintro ⟨helem, ⟨hfree, hz⟩, hheap, hlist⟩
      have ho : z ∉ x :: old := fun ho => hz (hold ho)
      have hk := hkept z helem ho
      have helem' := (hiff z).2 (Or.inr ⟨helem, ho⟩)
      refine ⟨helem', ⟨by rw [hk.state]; exact hfree, ?_⟩, by rw [hk.heap]; exact hheap, ?_⟩
      · rw [hout, not_or]
        exact ⟨fun hm => (hmid z hm).elim ho fun hn => hn helem, hz⟩
      · rw [listOf, hk.size]
        exact hlist
    · rintro ⟨helem, hi, hheap, hlist⟩
      obtain ⟨helem, ho, hi⟩ := hidle z hi helem
      have hk := hkept z helem ho
      refine ⟨helem, hi, by rw [← hk.heap]; exact hheap, ?_⟩
      rw [listOf, ← hk.size]
      exact hlist
  · intro hp' i
    rw [hheaps]
    exact h.nodup hp' i
  · intro q hq
    have hmono : ∀ z ∈ Function.update chunks p (l ++ mid ++ r) q, Idle c' out' z → Idle c out z :=
      fun z hz hi => (hidle z hi ⟨q, hq, hz⟩).2.2
    rw [hseg] at hq
    by_cases hqp : q = p
    · subst hqp
      rw [Function.update_self] at hmono ⊢
      have hapart := h.apart q hq
      rw [hchunks] at hapart
      refine NoTwo.replace (hapart.left.left.mono fun z hz => hmono z ?_) (hapart.right.mono fun z hz => hmono z ?_)
        (fun z hz hi => hi.2 ((hout z).2 (Or.inl hz))) hne
      · exact List.mem_append_left _ (List.mem_append_left _ hz)
      · exact List.mem_append_right _ hz
    · rw [Function.update_of_ne hqp] at hmono ⊢
      exact (h.apart q hq).mono hmono
  · intro z hz
    rw [hout, not_or] at hz
    have ho : z ∉ x :: old := fun ho => hz.2 (hold ho)
    constructor
    · rintro ⟨helem, hbusy⟩
      rcases (hiff z).1 helem with hm | ⟨helem, -⟩
      · exact absurd hm hz.1
      · exact ⟨helem, by rw [← (hkept z helem ho).state]; exact hbusy⟩
    · rintro ⟨helem, hbusy⟩
      exact ⟨(hiff z).2 (Or.inr ⟨helem, ho⟩), by rw [(hkept z helem ho).state]; exact hbusy⟩
  · intro z hz hbusy
    rw [hout, not_or] at hz
    exact hkept z hbusy.1 fun ho => hz.2 (hold ho)

/-! ### Splitting and joining -/

/-- An element that is out of the lists is cut into two. -/
theorem Inv.split (h : Inv c chunks out) (hp : p ∈ c.segs) (hchunks : chunks p = l ++ x :: r)
    (hxy : x.toNat < y.toNat) (hy : y.toNat < x.toNat + (c.mem x).size.toNat) (hdvd : 64 ∣ y.toNat) (hx : x ∈ out) :
    Inv (splitElem c x y) (Function.update chunks p (l ++ x :: y :: r)) (y :: out) ∧
      Frame c chunks (splitElem c x y) (Function.update chunks p (l ++ x :: y :: r)) (y :: out) := by
  have hchunks' : chunks p = l ++ [x] ++ r := by simpa using hchunks
  have hmem : IsElem c chunks x := ⟨p, hp, by simp [hchunks]⟩
  obtain ⟨hw, hshape⟩ := h.toShape.split hp hchunks hxy hy hdvd
  obtain ⟨n, rest, hplace⟩ := h.toShape.place hp hchunks'
  rw [← eq_add_of_toNat hplace.toNat_next] at hw
  have hnew : ¬IsElem c chunks y := fun hy' => by
    have := h.toShape.eq_of_inside hmem hy'.isHeader hxy.le hy
    subst this
    omega
  have hcut : Inv (splitElem c x y) (Function.update chunks p (l ++ [x, y] ++ r)) (y :: out) ∧
      Frame c chunks (splitElem c x y) (Function.update chunks p (l ++ [x, y] ++ r)) (y :: out) :=
    h.replace hp hchunks' hplace hw (by simpa using hshape) rfl (by simpa using hx) (by simp)
      (by simpa using Or.inr hnew) (by rintro z; simp only [List.mem_cons, List.not_mem_nil, or_false]; grind)
  simpa using hcut

/-- Two elements side by side that are out of the lists are joined. -/
theorem Inv.join (h : Inv c chunks out) (hp : p ∈ c.segs) (hchunks : chunks p = l ++ x :: y :: r) (hx : x ∈ out)
    (hy : y ∈ out) :
    Inv (joinElem c x y) (Function.update chunks p (l ++ x :: r)) out ∧
      Frame c chunks (joinElem c x y) (Function.update chunks p (l ++ x :: r)) out := by
  have hchunks' : chunks p = l ++ [x, y] ++ r := by simpa using hchunks
  obtain ⟨-, hw, hshape⟩ := h.toShape.join hp hchunks
  obtain ⟨n, rest, hplace⟩ := h.toShape.place hp hchunks'
  rw [← eq_add_of_toNat hplace.toNat_next_two.2] at hw
  have hjoined : Inv (joinElem c x y) (Function.update chunks p (l ++ [x] ++ r)) out ∧
      Frame c chunks (joinElem c x y) (Function.update chunks p (l ++ [x] ++ r)) out :=
    h.replace hp hchunks' hplace hw (by simpa using hshape) rfl (by simp [hx, hy]) (by simp) (by simp) (by simp [hx])
  simpa using hjoined

/-! ### Changes of one element -/

private theorem Within.modify {n : UInt64} {f : MallocElem → MallocElem} (h1 : x.toNat ≤ y.toNat)
    (h2 : y.toNat < n.toNat) :
    Within c (c.modify y f) x n := by
  refine ⟨rfl, fun a hout _ => MemConfig.mem_modify_of_ne _ _ ?_, (c.mem n).prev, MemConfig.mem_modify_of_ne _ _ ?_⟩
  · rintro rfl
    omega
  · rintro rfl
    omega

/-- A change inside of element `x` that leaves its size and its links, and its state when it is in a list. -/
theorem Inv.touch {f : MallocElem → MallocElem} (h : Inv c chunks out) (hp : p ∈ c.segs)
    (hchunks : chunks p = l ++ x :: r) (h1 : x.toNat ≤ y.toNat) (h2 : y.toNat < x.toNat + (c.mem x).size.toNat)
    (hsame : SameHeader (c.mem x) ((c.modify y f).mem x))
    (hstate : ((c.modify y f).mem x).state = (c.mem x).state ∨
      x ∈ out ∧ (((c.modify y f).mem x).state = .elemFree ∨ ((c.modify y f).mem x).state = .elemBusy)) :
    Inv (c.modify y f) chunks out ∧ Frame c chunks (c.modify y f) chunks (x :: out) := by
  have hchunks' : chunks p = l ++ [x] ++ r := by simpa using hchunks
  have hmem : x ∈ chunks p := by simp [hchunks]
  obtain ⟨n, rest, hplace⟩ := h.toShape.place hp hchunks'
  have hnext := hplace.toNat_next
  have hw : Within c (c.modify y f) x n := Within.modify h1 (by omega)
  have hc := h.chunked p hp
  have hkept : ∀ z, IsElem c chunks z → z ≠ x → Kept c (c.modify y f) z := fun z hz hne =>
    h.toShape.kept hp hchunks' hplace hw hz (by simpa using hne)
  have hshape : Shape (c.modify y f) chunks := by
    have hlinked := hc.linked
    rw [hchunks', List.append_assoc, List.append_assoc, hplace.rest_eq, linked_append, linked_append] at hlinked
    have hsize : ∀ z ∈ [x], ((c.modify y f).mem z).size = (c.mem z).size := by simpa using hsame.size
    have hupdate : Function.update chunks p (l ++ [x] ++ r) = chunks := by rw [← hchunks', Function.update_eq_self]
    rw [← hupdate]
    refine h.toShape.replace hp hchunks' hplace hw ?_ ?_ ?_ ?_
    · rw [MemConfig.mem_modify_of_ne _ _ (ne_of_toNat_lt (by omega)).symm]
      exact hlinked.2.2.1
    · rw [map_claimOf_congr hsize]
      exact hplace.here
    · exact ⟨hsame.prev.trans hlinked.2.1.1, trivial⟩
    · simp only [List.mem_singleton]
      rintro z rfl
      refine ⟨hsame.heap.trans (hc.heap z hmem), hsame.ms.trans (hc.ms z hmem), ?_, ?_⟩
      · rw [hsame.size]
        exact hc.lines z hmem
      · rcases hstate with hs | ⟨-, hs⟩
        · rw [hs]
          exact hc.state z hmem
        · exact hs
  have hidle : ∀ z, IsElem c chunks z → (Idle (c.modify y f) out z ↔ Idle c out z) := by
    intro z hz
    by_cases hzx : z = x
    · subst hzx
      rcases hstate with hs | ⟨ho, -⟩
      · rw [Idle, Idle, hs]
      · exact ⟨fun hi => absurd ho hi.2, fun hi => absurd ho hi.2⟩
    · rw [Idle, Idle, (hkept z hz hzx).state]
  have hfields : ∀ z, IsElem c chunks z → ((c.modify y f).mem z).heap = (c.mem z).heap ∧
      ((c.modify y f).mem z).size = (c.mem z).size := by
    intro z hz
    by_cases hzx : z = x
    · subst hzx
      exact ⟨hsame.heap, hsame.size⟩
    · exact ⟨(hkept z hz hzx).heap, (hkept z hz hzx).size⟩
  refine ⟨⟨hshape, ?_, h.nodup, ?_⟩, ?_, ?_⟩
  · intro hp' i z
    change z ∈ (c.mallocHeaps hp').freeHead i ↔ IsElem c chunks z ∧ _
    rw [h.listed]
    refine and_congr_right fun hz => ?_
    rw [hidle z hz, listOf, listOf, (hfields z hz).1, (hfields z hz).2]
  · exact fun q hq => (h.apart q hq).mono fun z hz hi => (hidle z ⟨q, hq, hz⟩).1 hi
  · intro z hz
    rw [List.mem_cons, not_or] at hz
    refine and_congr_right fun hz' => ?_
    rw [(hkept z hz' hz.1).state]
  · intro z hz hb
    rw [List.mem_cons, not_or] at hz
    exact hkept z hb.1 hz.1

/-! ### Giving an element to the lists -/

theorem freeHead_mallocElemFreeListInsert (c : MemConfig) (x : UInt64) (h i : Nat) :
    ((mallocElemFreeListInsert c x).mallocHeaps h).freeHead i =
      if h = (c.mem x).heap ∧ i = listOf (c.mem x) then x :: (c.mallocHeaps h).freeHead i
      else (c.mallocHeaps h).freeHead i := by
  simp only [mallocElemFreeListInsert, MemConfig.modifyHeap, MemConfig.mem_modify_self, MemConfig.mallocHeaps_modify,
    ← listOf.eq_1]
  by_cases hh : h = (c.mem x).heap
  · subst hh
    by_cases hi : i = listOf (c.mem x)
    · subst hi
      simp only [Function.update_self, and_self, ↓reduceIte]
    · simp only [Function.update_self, Function.update_of_ne hi, hi, and_false, ↓reduceIte]
  · simp only [Function.update_of_ne hh, hh, false_and, ↓reduceIte]

theorem mem_mallocElemFreeListInsert (c : MemConfig) (x : UInt64) :
    (mallocElemFreeListInsert c x).mem = (c.modify x fun e => { e with state := .elemFree }).mem := rfl

/-- An element that is out of the lists goes into its list; its neighbours are not free. -/
theorem Inv.insert (h : Inv c chunks (x :: out)) (hx : x ∉ out) (hp : p ∈ c.segs) (hchunks : chunks p = l ++ x :: r)
    (hlast : ∀ z ∈ l.getLast?, ¬Idle c out z) (hhead : ∀ z ∈ r.head?, ¬Idle c out z) :
    Inv (mallocElemFreeListInsert c x) chunks out ∧
      Frame c chunks (mallocElemFreeListInsert c x) chunks (x :: out) := by
  have hmem : IsElem c chunks x := ⟨p, hp, by simp [hchunks]⟩
  have hpos := (h.toShape.bounds (x := x) hp (by simp [hchunks])).2.2
  obtain ⟨h', hframe⟩ := h.touch (y := x) (f := fun e => { e with state := .elemFree }) hp hchunks (le_refl _)
    (by omega) (by rw [MemConfig.mem_modify_self]; exact ⟨rfl, rfl, rfl, rfl⟩)
    (by rw [MemConfig.mem_modify_self]; exact Or.inr ⟨by simp, Or.inl rfl⟩)
  have hself : (mallocElemFreeListInsert c x).mem x = { c.mem x with state := .elemFree } := by
    rw [mem_mallocElemFreeListInsert, MemConfig.mem_modify_self]
  have hother : ∀ z, z ≠ x → (mallocElemFreeListInsert c x).mem z = c.mem z := fun z hz => by
    rw [mem_mallocElemFreeListInsert, MemConfig.mem_modify_of_ne _ _ hz]
  have hidle : ∀ z, z ≠ x → (Idle (mallocElemFreeListInsert c x) out z ↔ Idle c (x :: out) z) := by
    intro z hz
    rw [Idle, Idle, hother z hz, List.mem_cons, not_or]
    exact ⟨fun hi => ⟨hi.1, hz, hi.2⟩, fun hi => ⟨hi.1, hi.2.2⟩⟩
  refine ⟨⟨⟨h.segs, h'.chunked⟩, ?_, ?_, ?_⟩, ⟨fun z hz => ?_, fun z hz => ?_⟩⟩
  · intro hp' i z
    have hz : z ∈ ((mallocElemFreeListInsert c x).mallocHeaps hp').freeHead i ↔
        (z = x ∧ (c.mem x).heap = hp' ∧ listOf (c.mem x) = i) ∨ z ∈ (c.mallocHeaps hp').freeHead i := by
      rw [freeHead_mallocElemFreeListInsert]
      split
      · rename_i heq
        simp [heq.1, heq.2]
      · rename_i hne
        constructor
        · exact Or.inr
        · rintro (⟨rfl, h1, h2⟩ | hz)
          · exact absurd ⟨h1.symm, h2.symm⟩ hne
          · exact hz
    rw [hz, h.listed]
    change _ ↔ IsElem c chunks z ∧ _
    by_cases hzx : z = x
    · subst hzx
      have hnot : ¬Idle c (z :: out) z := fun hi => hi.2 (by simp)
      have hyes : Idle (mallocElemFreeListInsert c z) out z := ⟨by rw [hself], hx⟩
      rw [hself]
      constructor
      · rintro (⟨-, h1, h2⟩ | ⟨-, hi, -⟩)
        · exact ⟨hmem, hyes, h1, h2⟩
        · exact absurd hi hnot
      · rintro ⟨-, -, h1, h2⟩
        exact Or.inl ⟨rfl, h1, h2⟩
    · rw [hidle z hzx, hother z hzx]
      simp [hzx]
  · intro hp' i
    rw [freeHead_mallocElemFreeListInsert]
    split
    · refine List.nodup_cons.2 ⟨fun hmem => ?_, h.nodup hp' i⟩
      exact ((h.listed hp' i x).1 hmem).2.1.2 (by simp)
    · exact h.nodup hp' i
  · intro q hq
    by_cases hqp : q = p
    · subst hqp
      have hapart := h.apart q hq
      have hnodup := (h.chunked q hq).nodup
      rw [hchunks, List.nodup_append, List.nodup_cons] at hnodup
      rw [hchunks] at hapart ⊢
      have hl : ∀ z ∈ l, z ≠ x := fun z hz hzx => hnodup.2.2 z hz x (by simp) hzx
      have hr : ∀ z ∈ r, z ≠ x := fun z hz hzx => hnodup.2.1.1 (hzx ▸ hz)
      have hrest : NoTwo (Idle c (x :: out)) r := (List.isChain_cons.1 hapart.right).2
      refine NoTwo.insert (hapart.left.mono fun z hz => (hidle z (hl z hz)).1)
        (hrest.mono fun z hz => (hidle z (hr z hz)).1) ?_ ?_
      · intro z hz hi
        exact hlast z hz (by rw [Idle, ← hother z (hl z (List.mem_of_mem_getLast? hz))]; exact hi)
      · intro z hz hi
        exact hhead z hz (by rw [Idle, ← hother z (hr z (List.mem_of_mem_head? hz))]; exact hi)
    · refine (h.apart q hq).mono fun z hz => (hidle z ?_).1
      rintro rfl
      exact hqp (h.toShape.seg_unique hq hp hz (by simp [hchunks]))
  · exact hframe.busy z (by simpa using hz)
  · exact fun hb => (hframe.kept z (by simpa using hz) hb).trans (.of_mem (mem_mallocElemFreeListInsert c x) z)

end

end SoftPatchPanel.Malloc
