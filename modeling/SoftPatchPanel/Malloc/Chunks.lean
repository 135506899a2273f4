import SoftPatchPanel.Malloc.Heap
import SoftPatchPanel.Lib.Claims
import Mathlib.Data.List.Nodup
import Mathlib.Data.List.Pairwise

/-!
# The elements of a memseg

The memory of each memseg is cut into elements laid end to end, from its first address to the header behind the last
element, and each element knows the one before it (`Chunked`).  Splitting an element and joining it with its neighbour
change the list of elements at one place (`Shape.split`, `Shape.join`), and what lies inside of the other elements
stays as it is (`Kept`).
-/

namespace SoftPatchPanel.Malloc

open Lib

/-! ### The memsegs -/

/-- The memsegs as the EAL sets them up: cache lines, disjoint, each with room for a header at both ends. -/
structure SegsOk (segs : List (Nat × Memseg)) : Prop where
  pos : ∀ p ∈ segs, 0 < p.2.addr.toNat
  aligned : ∀ p ∈ segs, 64 ∣ p.2.addr.toNat
  room : ∀ p ∈ segs, 128 ≤ p.2.len.toNat
  fits : ∀ p ∈ segs, p.2.addr.toNat + p.2.len.toNat < 2 ^ 64
  apart : segs.Pairwise fun p q =>
    p.2.addr.toNat + p.2.len.toNat ≤ q.2.addr.toNat ∨ q.2.addr.toNat + q.2.len.toNat ≤ p.2.addr.toNat

private theorem isPow2_cacheLine : IsPow2 rteCacheLineSize := ⟨6, rfl⟩

section

variable {segs : List (Nat × Memseg)} {p q : Nat × Memseg}

theorem SegsOk.endElem (h : SegsOk segs) (hp : p ∈ segs) :
    p.2.addr.toNat < (endElem p.2).toNat ∧ (Malloc.endElem p.2).toNat + 64 ≤ p.2.addr.toNat + p.2.len.toNat ∧
      64 ∣ (Malloc.endElem p.2).toNat := by
  have hroom := h.room p hp
  have hfits := h.fits p hp
  have haligned := h.aligned p hp
  have hlen : (p.2.len - mallocElemOverhead).toNat = p.2.len.toNat - 64 :=
    UInt64.toNat_sub_of_le _ _ (by rw [UInt64.le_iff_toNat_le]; exact le_trans (by decide) hroom)
  have hval : (p.2.addr + (p.2.len - mallocElemOverhead)).toNat = p.2.addr.toNat + (p.2.len.toNat - 64) := by
    rw [UInt64.toNat_add, hlen, Nat.mod_eq_of_lt (by omega)]
  have hfloor := toNat_alignFloor (p.2.addr + (p.2.len - mallocElemOverhead)) isPow2_cacheLine
  have hsize : rteCacheLineSize.toNat = 64 := rfl
  rw [hval, hsize] at hfloor
  have hunfold : (Malloc.endElem p.2).toNat = (alignFloor (p.2.addr + (p.2.len - mallocElemOverhead))
    rteCacheLineSize).toNat := rfl
  rw [hunfold, hfloor]
  refine ⟨by omega, by omega, Nat.dvd_sub_mod _⟩

theorem SegsOk.eq_of_meet (h : SegsOk segs) (hp : p ∈ segs) (hq : q ∈ segs) {n : Nat}
    (h1 : p.2.addr.toNat ≤ n ∧ n < p.2.addr.toNat + p.2.len.toNat)
    (h2 : q.2.addr.toNat ≤ n ∧ n < q.2.addr.toNat + q.2.len.toNat) : p = q := by
  by_contra hne
  have hsymm : Std.Symm fun p q : Nat × Memseg =>
      p.2.addr.toNat + p.2.len.toNat ≤ q.2.addr.toNat ∨ q.2.addr.toNat + q.2.len.toNat ≤ p.2.addr.toNat :=
    ⟨fun _ _ => Or.symm⟩
  have := h.apart.forall hp hq hne
  omega

end

/-! ### Elements laid end to end -/

/-- The stretch of memory that the element at `x` covers. -/
def claimOf (mem : UInt64 → MallocElem) (x : UInt64) : Claim UInt64 := ⟨x, x.toNat, (mem x).size.toNat⟩

/-- Each element leads back to the one before it, the first one to `p`. -/
def Linked (mem : UInt64 → MallocElem) : UInt64 → List UInt64 → Prop
  | _, [] => True
  | p, x :: xs => (mem x).prev = p ∧ Linked mem x xs

/-- The memory of memseg `p` is cut into the elements `xs`. -/
structure Chunked (mem : UInt64 → MallocElem) (p : Nat × Memseg) (xs : List UInt64) : Prop where
  tiles : Tiles p.2.addr.toNat (xs.map (claimOf mem)) (endElem p.2).toNat
  linked : Linked mem 0 (xs ++ [endElem p.2])
  heap : ∀ x ∈ xs, (mem x).heap = p.2.socketId
  ms : ∀ x ∈ xs, (mem x).ms = p.1
  lines : ∀ x ∈ xs, 64 ∣ (mem x).size.toNat
  state : ∀ x ∈ xs, (mem x).state = .elemFree ∨ (mem x).state = .elemBusy
  marker : (mem (endElem p.2)).state = .elemBusy

section

variable {mem mem' : UInt64 → MallocElem} {p : Nat × Memseg} {xs l r : List UInt64} {a b x y : UInt64}

theorem linked_append : Linked mem a (l ++ r) ↔ Linked mem a l ∧ Linked mem (l.getLastD a) r := by
  induction l generalizing a with
  | nil => simp [Linked]
  | cons x l ih => rw [List.cons_append, Linked, Linked, ih, and_assoc, List.getLastD_cons]

private theorem Linked.congr (h : Linked mem a xs) (hsame : ∀ x ∈ xs, (mem' x).prev = (mem x).prev) :
    Linked mem' a xs := by
  induction xs generalizing a with
  | nil => trivial
  | cons x xs ih =>
    rw [List.forall_mem_cons] at hsame
    exact ⟨hsame.1.trans h.1, ih h.2 hsame.2⟩

theorem map_claimOf_congr (hsame : ∀ x ∈ xs, (mem' x).size = (mem x).size) :
    xs.map (claimOf mem') = xs.map (claimOf mem) :=
  List.map_congr_left fun x hx => by rw [claimOf, claimOf, hsame x hx]

/-- What two memories have in common for the list of elements to be the same. -/
structure SameHeader (e e' : MallocElem) : Prop where
  heap : e'.heap = e.heap
  ms : e'.ms = e.ms
  size : e'.size = e.size
  prev : e'.prev = e.prev

private theorem Chunked.congr (h : Chunked mem p xs) (hsame : ∀ x ∈ xs, SameHeader (mem x) (mem' x))
    (hstate : ∀ x ∈ xs, (mem' x).state = .elemFree ∨ (mem' x).state = .elemBusy)
    (hend : mem' (endElem p.2) = mem (endElem p.2)) : Chunked mem' p xs where
  tiles := by
    rw [map_claimOf_congr fun x hx => (hsame x hx).size]
    exact h.tiles
  linked := h.linked.congr fun x hx => by
    rcases List.mem_append.1 hx with hx | hx
    · exact (hsame x hx).prev
    · rw [List.mem_singleton.1 hx, hend]
  heap := fun x hx => (hsame x hx).heap.trans (h.heap x hx)
  ms := fun x hx => (hsame x hx).ms.trans (h.ms x hx)
  lines := fun x hx => by
    rw [(hsame x hx).size]
    exact h.lines x hx
  state := hstate
  marker := by
    rw [hend]
    exact h.marker

private theorem Chunked.bounds (h : Chunked mem p xs) (hx : x ∈ xs) :
    p.2.addr.toNat ≤ x.toNat ∧ x.toNat + (mem x).size.toNat ≤ (endElem p.2).toNat ∧ 0 < (mem x).size.toNat :=
  h.tiles.bounds (List.mem_map_of_mem hx)

private theorem Chunked.eq_of_meet (h : Chunked mem p xs) (hx : x ∈ xs) (hy : y ∈ xs) {n : Nat}
    (h1 : x.toNat ≤ n ∧ n < x.toNat + (mem x).size.toNat) (h2 : y.toNat ≤ n ∧ n < y.toNat + (mem y).size.toNat) :
    x = y :=
  congrArg Claim.owner (h.tiles.eq_of_meet (List.mem_map_of_mem hx) (List.mem_map_of_mem hy) h1 h2)

theorem Chunked.nodup (h : Chunked mem p xs) : xs.Nodup := h.tiles.nodup.of_map _

private theorem tiles_dvd {s e : Nat} (h : Tiles s (xs.map (claimOf mem)) e) (hs : 64 ∣ s)
    (hlines : ∀ x ∈ xs, 64 ∣ (mem x).size.toNat) (hx : x ∈ xs) : 64 ∣ x.toNat := by
  induction xs generalizing s with
  | nil => cases hx
  | cons y xs ih =>
    obtain ⟨hstart, -, hrest⟩ := h
    rw [List.forall_mem_cons] at hlines
    rcases List.mem_cons.1 hx with rfl | hx
    · rw [show x.toNat = s from hstart]
      exact hs
    · exact ih hrest (Nat.dvd_add hs hlines.1) hlines.2 hx

/-- The element or the end behind element `x`. -/
private theorem Chunked.next (h : Chunked mem p (l ++ x :: r)) :
    ∃ rest, r ++ [endElem p.2] = (x + (mem x).size) :: rest ∧
      (x + (mem x).size).toNat = x.toNat + (mem x).size.toNat := by
  have htiles := h.tiles
  rw [List.map_append, tiles_append] at htiles
  obtain ⟨s, -, hstart, hpos, hr⟩ := htiles
  have hs : s = x.toNat := hstart.symm
  have hle := hr.le
  have hlt := (endElem p.2).toNat_lt
  have hsum : (x + (mem x).size).toNat = x.toNat + (mem x).size.toNat := by
    rw [UInt64.toNat_add]
    apply Nat.mod_eq_of_lt
    simp only [claimOf] at hle
    omega
  cases r with
  | nil =>
    refine ⟨[], ?_, hsum⟩
    have hend : endElem p.2 = x + (mem x).size := by
      apply UInt64.toNat_inj.1
      rw [hsum, ← hs]
      exact hr.symm
    rw [List.nil_append, hend]
  | cons y r =>
    refine ⟨r ++ [endElem p.2], ?_, hsum⟩
    have hy : y = x + (mem x).size := by
      apply UInt64.toNat_inj.1
      rw [hsum, ← hs]
      exact hr.1
    rw [List.cons_append, hy]

end

/-! ### All memsegs -/

/-- Every memseg of the heaps is cut into its elements. -/
structure Shape (c : MemConfig) (chunks : Nat × Memseg → List UInt64) : Prop where
  segs : SegsOk c.segs
  chunked : ∀ p ∈ c.segs, Chunked c.mem p (chunks p)

/-- There is an element at `x`. -/
def IsElem (c : MemConfig) (chunks : Nat × Memseg → List UInt64) (x : UInt64) : Prop := ∃ p ∈ c.segs, x ∈ chunks p

/-- The element at `x` has the same state, pad and size as before, and nothing inside of it has changed. -/
structure Kept (c c' : MemConfig) (x : UInt64) : Prop where
  state : (c'.mem x).state = (c.mem x).state
  pad : (c'.mem x).pad = (c.mem x).pad
  size : (c'.mem x).size = (c.mem x).size
  heap : (c'.mem x).heap = (c.mem x).heap
  ms : (c'.mem x).ms = (c.mem x).ms
  inside : ∀ a : UInt64, x.toNat < a.toNat → a.toNat < x.toNat + (c.mem x).size.toNat → c'.mem a = c.mem a

theorem Kept.of_mem {c c' : MemConfig} (h : c'.mem = c.mem) (x : UInt64) : Kept c c' x :=
  ⟨by rw [h], by rw [h], by rw [h], by rw [h], by rw [h], fun _ _ _ => by rw [h]⟩

theorem Kept.trans {c₁ c₂ c₃ : MemConfig} {x : UInt64} (h : Kept c₁ c₂ x) (h' : Kept c₂ c₃ x) : Kept c₁ c₃ x where
  state := h'.state.trans h.state
  pad := h'.pad.trans h.pad
  size := h'.size.trans h.size
  heap := h'.heap.trans h.heap
  ms := h'.ms.trans h.ms
  inside := fun a h1 h2 => (h'.inside a h1 (by rw [h.size]; exact h2)).trans (h.inside a h1 h2)

section

variable {c : MemConfig} {chunks : Nat × Memseg → List UInt64} {p q : Nat × Memseg} {l r : List UInt64}
  {x y z : UInt64}

theorem Shape.bounds (h : Shape c chunks) (hp : p ∈ c.segs) (hx : x ∈ chunks p) :
    p.2.addr.toNat ≤ x.toNat ∧ x.toNat + (c.mem x).size.toNat ≤ (endElem p.2).toNat ∧ 0 < (c.mem x).size.toNat :=
  (h.chunked p hp).bounds hx

theorem Shape.dvd (h : Shape c chunks) (hx : IsElem c chunks x) : 64 ∣ x.toNat := by
  obtain ⟨p, hp, hx⟩ := hx
  exact tiles_dvd (h.chunked p hp).tiles (h.segs.aligned p hp) (h.chunked p hp).lines hx

private theorem Shape.lines (h : Shape c chunks) (hx : IsElem c chunks x) : 64 ∣ (c.mem x).size.toNat := by
  obtain ⟨p, hp, hx⟩ := hx
  exact (h.chunked p hp).lines x hx

theorem Shape.pos (h : Shape c chunks) (hx : IsElem c chunks x) : 0 < x.toNat := by
  obtain ⟨p, hp, hx⟩ := hx
  exact lt_of_lt_of_le (h.segs.pos p hp) (h.bounds hp hx).1

theorem Shape.ne_zero (h : Shape c chunks) (hx : IsElem c chunks x) : x ≠ 0 := by
  rintro rfl
  exact absurd (h.pos hx) (by decide)

theorem Shape.le_size (h : Shape c chunks) (hx : IsElem c chunks x) : 64 ≤ (c.mem x).size.toNat := by
  have hdvd := h.lines hx
  obtain ⟨p, hp, hx⟩ := hx
  exact Nat.le_of_dvd (h.bounds hp hx).2.2 hdvd

/-- Memory inside two elements is inside the same element. -/
theorem Shape.eq_of_meet (h : Shape c chunks) (hx : IsElem c chunks x) (hy : IsElem c chunks y) {n : Nat}
    (h1 : x.toNat ≤ n ∧ n < x.toNat + (c.mem x).size.toNat) (h2 : y.toNat ≤ n ∧ n < y.toNat + (c.mem y).size.toNat) :
    x = y := by
  obtain ⟨p, hp, hx⟩ := hx
  obtain ⟨q, hq, hy⟩ := hy
  have hxb := h.bounds hp hx
  have hyb := h.bounds hq hy
  have hpe := h.segs.endElem hp
  have hqe := h.segs.endElem hq
  have hpq : p = q := h.segs.eq_of_meet hp hq (n := n) (by omega) (by omega)
  subst hpq
  exact (h.chunked p hp).eq_of_meet hx hy h1 h2

/-- The header at the end of a memseg is not inside an element. -/
private theorem Shape.end_not_inside (h : Shape c chunks) (hx : IsElem c chunks x) (hq : q ∈ c.segs) :
    ¬(x.toNat ≤ (endElem q.2).toNat ∧ (endElem q.2).toNat < x.toNat + (c.mem x).size.toNat) := by
  rintro ⟨h1, h2⟩
  obtain ⟨p, hp, hx⟩ := hx
  have hxb := h.bounds hp hx
  have hpe := h.segs.endElem hp
  have hqe := h.segs.endElem hq
  have hpq : p = q := h.segs.eq_of_meet hp hq (n := (endElem q.2).toNat) (by omega) (by omega)
  subst hpq
  omega

/-- Elements and the headers at the ends of the memsegs. -/
def IsHeader (c : MemConfig) (chunks : Nat × Memseg → List UInt64) (x : UInt64) : Prop :=
  ∃ p ∈ c.segs, x ∈ chunks p ++ [endElem p.2]

theorem IsElem.isHeader (h : IsElem c chunks x) : IsHeader c chunks x := by
  obtain ⟨p, hp, hx⟩ := h
  exact ⟨p, hp, List.mem_append_left _ hx⟩

/-- A header inside an element is the header of the element. -/
theorem Shape.eq_of_inside (h : Shape c chunks) (hx : IsElem c chunks x) (hy : IsHeader c chunks y)
    (h1 : x.toNat ≤ y.toNat) (h2 : y.toNat < x.toNat + (c.mem x).size.toNat) : y = x := by
  obtain ⟨p, hp, hy⟩ := hy
  rcases List.mem_append.1 hy with hy | hy
  · have := h.bounds hp hy
    exact h.eq_of_meet ⟨p, hp, hy⟩ hx (n := y.toNat) (by omega) ⟨h1, h2⟩
  · rw [List.mem_singleton.1 hy] at h1 h2
    exact absurd ⟨h1, h2⟩ (h.end_not_inside hx hp)

/-- The header behind element `x`. -/
theorem Shape.next (h : Shape c chunks) (hp : p ∈ c.segs) (hchunks : chunks p = l ++ x :: r) :
    (∃ rest, r ++ [endElem p.2] = (x + (c.mem x).size) :: rest) ∧
      (x + (c.mem x).size).toNat = x.toNat + (c.mem x).size.toNat ∧ IsHeader c chunks (x + (c.mem x).size) := by
  have hc := h.chunked p hp
  rw [hchunks] at hc
  obtain ⟨rest, hrest, hsum⟩ := hc.next
  refine ⟨⟨rest, hrest⟩, hsum, p, hp, ?_⟩
  rw [hchunks, List.append_assoc, List.cons_append, hrest]
  simp

end

/-! ### Changes at one place -/

/-- Memory has changed only from `x` on up to the header `n`, and of this one only the link back. -/
structure Within (c c' : MemConfig) (x n : UInt64) : Prop where
  memseg : c'.memseg = c.memseg
  outside : ∀ a : UInt64, ¬(x.toNat ≤ a.toNat ∧ a.toNat < n.toNat) → a ≠ n → c'.mem a = c.mem a
  next : ∃ b, c'.mem n = { c.mem n with prev := b }

section

variable {c c' : MemConfig} {chunks : Nat × Memseg → List UInt64} {p q : Nat × Memseg} {l old mid r rest : List UInt64}
  {n x y z : UInt64}

theorem Within.segs (h : Within c c' x n) : c'.segs = c.segs := by rw [MemConfig.segs, h.memseg, MemConfig.segs]

/-- Where the elements `old` lie between the others. -/
structure Place (c : MemConfig) (p : Nat × Memseg) (l old r : List UInt64) (x n : UInt64) (rest : List UInt64) :
    Prop where
  rest_eq : r ++ [endElem p.2] = n :: rest
  before : Tiles p.2.addr.toNat (l.map (claimOf c.mem)) x.toNat
  here : Tiles x.toNat (old.map (claimOf c.mem)) n.toNat
  behind : Tiles n.toNat (r.map (claimOf c.mem)) (endElem p.2).toNat

theorem Shape.place (h : Shape c chunks) (hp : p ∈ c.segs) (hchunks : chunks p = l ++ (x :: old) ++ r) :
    ∃ n rest, Place c p l (x :: old) r x n rest := by
  have htiles := (h.chunked p hp).tiles
  rw [hchunks, List.map_append, List.map_append, tiles_append] at htiles
  obtain ⟨e, hbefore, hr⟩ := htiles
  obtain ⟨s, hl, hold⟩ := tiles_append.1 hbefore
  have hs : x.toNat = s := hold.1
  cases r with
  | nil =>
    have he : e = (endElem p.2).toNat := hr
    exact ⟨endElem p.2, [], rfl, by rw [hs]; exact hl, by rw [hs, ← he]; exact hold, rfl⟩
  | cons n r =>
    have he : n.toNat = e := hr.1
    exact ⟨n, r ++ [endElem p.2], rfl, by rw [hs]; exact hl, by rw [hs, he]; exact hold, by rw [he]; exact hr⟩

private theorem Place.lt (h : Place c p l (x :: old) r x n rest) : x.toNat < n.toNat := by
  have h1 := h.here.2.1
  have h2 := h.here.2.2.le
  have h3 : (claimOf c.mem x).len = (c.mem x).size.toNat := rfl
  omega

theorem eq_add_of_toNat {a b d : UInt64} (h : b.toNat = a.toNat + d.toNat) : b = a + d := by
  apply UInt64.toNat_inj.1
  rw [UInt64.toNat_add, ← h, Nat.mod_eq_of_lt b.toNat_lt]

theorem Place.toNat_next (h : Place c p l [x] r x n rest) : n.toNat = x.toNat + (c.mem x).size.toNat :=
  h.here.2.2.symm

theorem Place.toNat_next_two (h : Place c p l [x, y] r x n rest) :
    y.toNat = x.toNat + (c.mem x).size.toNat ∧ n.toNat = y.toNat + (c.mem y).size.toNat := by
  obtain ⟨-, -, hy, -, hn⟩ := h.here
  have hy' : y.toNat = x.toNat + (c.mem x).size.toNat := hy
  exact ⟨hy', by rw [hy']; exact hn.symm⟩

private theorem Place.lt_rest (h : Place c p l old r x n rest) (hz : z ∈ rest) : n.toNat < z.toNat := by
  have heq := h.rest_eq
  have hbehind := h.behind
  cases r with
  | nil =>
    simp only [List.nil_append, List.cons.injEq] at heq
    rw [← heq.2] at hz
    cases hz
  | cons m r =>
    simp only [List.cons_append, List.cons.injEq] at heq
    obtain ⟨rfl, rfl⟩ := heq
    obtain ⟨-, hpos, hr⟩ := hbehind
    rcases List.mem_append.1 hz with hz | hz
    · have := (hr.bounds (List.mem_map_of_mem hz)).1
      have hstart : (claimOf c.mem z).start = z.toNat := rfl
      omega
    · rw [List.mem_singleton.1 hz]
      have := hr.le
      omega

/-- Every element behind is the header `n` or further behind. -/
private theorem Place.mem_right (h : Place c p l old r x n rest) (hz : z ∈ r ++ [endElem p.2]) :
    z = n ∨ n.toNat < z.toNat := by
  rw [h.rest_eq] at hz
  rcases List.mem_cons.1 hz with hz | hz
  · exact Or.inl hz
  · exact Or.inr (h.lt_rest hz)

private theorem Place.mem_left (h : Place c p l old r x n rest) (hz : z ∈ l) :
    z.toNat + (c.mem z).size.toNat ≤ x.toNat ∧ 0 < (c.mem z).size.toNat :=
  (h.before.bounds (List.mem_map_of_mem hz)).2

/-- The header of a memseg lies inside of it. -/
private theorem Shape.header_bounds (h : Shape c chunks) (hq : q ∈ c.segs) (hz : z ∈ chunks q ++ [endElem q.2]) :
    q.2.addr.toNat ≤ z.toNat ∧ z.toNat ≤ (endElem q.2).toNat := by
  have hend := h.segs.endElem hq
  rcases List.mem_append.1 hz with hz | hz
  · have := h.bounds hq hz
    omega
  · rw [List.mem_singleton.1 hz]
    omega

/-- A memseg other than the changed one keeps its elements. -/
private theorem Shape.other (h : Shape c chunks) (hp : p ∈ c.segs) (hq : q ∈ c.segs) (hne : q ≠ p)
    (hw : Within c c' x n)
    (hx : p.2.addr.toNat ≤ x.toNat) (hn : n.toNat ≤ (endElem p.2).toNat) (hxn : x.toNat < n.toNat) :
    Chunked c'.mem q (chunks q) := by
  have hpe := h.segs.endElem hp
  have hqe := h.segs.endElem hq
  have hsame : ∀ z ∈ chunks q ++ [endElem q.2], c'.mem z = c.mem z := by
    intro z hz
    have hb := h.header_bounds hq hz
    have hout : ¬(x.toNat ≤ z.toNat ∧ z.toNat ≤ n.toNat) := by
      intro hin
      exact hne (h.segs.eq_of_meet hq hp (n := z.toNat) (by omega) (by omega))
    apply hw.outside
    · omega
    · rintro rfl
      omega
  refine (h.chunked q hq).congr (fun z hz => ?_) (fun z hz => ?_) (hsame _ (by simp))
  · rw [hsame z (List.mem_append_left _ hz)]
    exact ⟨rfl, rfl, rfl, rfl⟩
  · rw [hsame z (List.mem_append_left _ hz)]
    exact (h.chunked q hq).state z hz

/-- What the header of a new element has to be. -/
structure Fresh (p : Nat × Memseg) (e : MallocElem) : Prop where
  heap : e.heap = p.2.socketId
  ms : e.ms = p.1
  lines : 64 ∣ e.size.toNat
  state : e.state = .elemFree ∨ e.state = .elemBusy

/-- The elements before the place keep their headers. -/
private theorem Place.same_left (h : Place c p l (x :: old) r x n rest) (hw : Within c c' x n) (hz : z ∈ l) :
    c'.mem z = c.mem z := by
  have hleft := h.mem_left hz
  have hlt := h.lt
  apply hw.outside
  · omega
  · rintro rfl
    omega

private theorem Place.same_rest (h : Place c p l (x :: old) r x n rest) (hw : Within c c' x n) (hz : z ∈ rest) :
    c'.mem z = c.mem z := by
  have hfar := h.lt_rest hz
  apply hw.outside
  · omega
  · rintro rfl
    omega

/-- The elements around the place keep their headers up to the link back. -/
private theorem Place.same_around (h : Place c p l (x :: old) r x n rest) (hw : Within c c' x n)
    (hz : z ∈ l ∨ z ∈ r ++ [endElem p.2]) : ∃ b, c'.mem z = { c.mem z with prev := b } := by
  rcases hz with hz | hz
  · exact ⟨(c.mem z).prev, by rw [h.same_left hw hz]⟩
  · rw [h.rest_eq] at hz
    rcases List.mem_cons.1 hz with rfl | hz
    · exact hw.next
    · exact ⟨(c.mem z).prev, by rw [h.same_rest hw hz]⟩

private theorem Place.chunked (h : Place c p l (x :: old) r x n rest) (hc : Chunked c.mem p (l ++ (x :: old) ++ r))
    (hw : Within c c' x n) (hprev : (c'.mem n).prev = mid.getLastD (l.getLastD 0))
    (htiles : Tiles x.toNat (mid.map (claimOf c'.mem)) n.toNat) (hlinked : Linked c'.mem (l.getLastD 0) mid)
    (hfresh : ∀ z ∈ mid, Fresh p (c'.mem z)) : Chunked c'.mem p (l ++ mid ++ r) := by
  have hall : ∀ z ∈ l ++ mid ++ r, Fresh p (c'.mem z) := by
    intro z hz
    simp only [List.mem_append] at hz
    rcases hz with (hz | hz) | hz
    · have hz' : z ∈ l ++ (x :: old) ++ r := List.mem_append_left _ (List.mem_append_left _ hz)
      rw [h.same_left hw hz]
      exact ⟨hc.heap z hz', hc.ms z hz', hc.lines z hz', hc.state z hz'⟩
    · exact hfresh z hz
    · have hz' : z ∈ l ++ (x :: old) ++ r := List.mem_append_right _ hz
      obtain ⟨b, heq⟩ := h.same_around hw (Or.inr (List.mem_append_left _ hz))
      rw [heq]
      exact ⟨hc.heap z hz', hc.ms z hz', hc.lines z hz', hc.state z hz'⟩
  have hsize : ∀ z ∈ r, (c'.mem z).size = (c.mem z).size := by
    intro z hz
    obtain ⟨b, heq⟩ := h.same_around hw (Or.inr (List.mem_append_left _ hz))
    rw [heq]
  constructor
  · rw [List.map_append, List.map_append, tiles_append]
    refine ⟨n.toNat, tiles_append.2 ⟨x.toNat, ?_, htiles⟩, ?_⟩
    · rw [map_claimOf_congr fun z hz => by rw [h.same_left hw hz]]
      exact h.before
    · rw [map_claimOf_congr hsize]
      exact h.behind
  · have hlinked' := hc.linked
    rw [List.append_assoc, h.rest_eq, List.append_assoc, linked_append] at hlinked'
    rw [List.append_assoc, h.rest_eq, List.append_assoc, linked_append, linked_append]
    obtain ⟨hl, hrest⟩ := hlinked'
    rw [linked_append] at hrest
    exact ⟨hl.congr fun z hz => by rw [h.same_left hw hz], hlinked, hprev,
      hrest.2.2.congr fun z hz => by rw [h.same_rest hw hz]⟩
  · exact fun z hz => (hall z hz).heap
  · exact fun z hz => (hall z hz).ms
  · exact fun z hz => (hall z hz).lines
  · exact fun z hz => (hall z hz).state
  · obtain ⟨b, heq⟩ := h.same_around (z := endElem p.2) hw (Or.inr (by simp))
    rw [heq]
    exact hc.marker

/-- Elements that are replaced by others on the same stretch of memory. -/
theorem Shape.replace (h : Shape c chunks) (hp : p ∈ c.segs) (hchunks : chunks p = l ++ (x :: old) ++ r)
    (hplace : Place c p l (x :: old) r x n rest) (hw : Within c c' x n)
    (hprev : (c'.mem n).prev = mid.getLastD (l.getLastD 0))
    (htiles : Tiles x.toNat (mid.map (claimOf c'.mem)) n.toNat) (hlinked : Linked c'.mem (l.getLastD 0) mid)
    (hfresh : ∀ z ∈ mid, Fresh p (c'.mem z)) : Shape c' (Function.update chunks p (l ++ mid ++ r)) := by
  have hc := h.chunked p hp
  rw [hchunks] at hc
  refine ⟨by rw [hw.segs]; exact h.segs, fun q hq => ?_⟩
  rw [hw.segs] at hq
  by_cases hqp : q = p
  · subst hqp
    rw [Function.update_self]
    exact hplace.chunked hc hw hprev htiles hlinked hfresh
  · rw [Function.update_of_ne hqp]
    exact h.other hp hq hqp hw hplace.before.le hplace.behind.le hplace.lt

/-- The other elements are kept. -/
theorem Shape.kept (h : Shape c chunks) (hp : p ∈ c.segs) (hchunks : chunks p = l ++ (x :: old) ++ r)
    (hplace : Place c p l (x :: old) r x n rest) (hw : Within c c' x n) (hz : IsElem c chunks z) (hne : z ∉ x :: old) :
    Kept c c' z := by
  have hlt := hplace.lt
  obtain ⟨q, hq, hz⟩ := hz
  by_cases hqp : q = p
  · subst hqp
    rw [hchunks] at hz
    have hz' : z ∈ l ∨ z ∈ r := by
      simp only [List.mem_append] at hz
      tauto
    obtain ⟨b, heq⟩ := hplace.same_around hw (hz'.imp_right (List.mem_append_left _))
    refine ⟨by rw [heq], by rw [heq], by rw [heq], by rw [heq], by rw [heq], fun a h1 h2 => ?_⟩
    apply hw.outside
    all_goals rcases hz' with hz' | hz'
    · have := hplace.mem_left hz'
      omega
    · have := hplace.mem_right (List.mem_append_left _ hz')
      rcases this with rfl | hfar
      · omega
      · omega
    · have := hplace.mem_left hz'
      rintro rfl
      omega
    · have := hplace.mem_right (List.mem_append_left _ hz')
      rintro rfl
      rcases this with rfl | hfar
      · omega
      · omega
  · -- the elements of another memseg are far away
    have hb := h.bounds hq hz
    have hpe := h.segs.endElem hp
    have hqe := h.segs.endElem hq
    have hle := hplace.before.le
    have hend := hplace.behind.le
    have hfar : ∀ a : UInt64, z.toNat ≤ a.toNat → a.toNat < z.toNat + (c.mem z).size.toNat → c'.mem a = c.mem a := by
      intro a h1 h2
      have hout : ¬(x.toNat ≤ a.toNat ∧ a.toNat ≤ n.toNat) := fun hin =>
        hqp (h.segs.eq_of_meet hq hp (n := a.toNat) (by omega) (by omega))
      apply hw.outside
      · omega
      · rintro rfl
        omega
    have hheader := hfar z (le_refl _) (by omega)
    exact ⟨by rw [hheader], by rw [hheader], by rw [hheader], by rw [hheader], by rw [hheader],
      fun a h1 h2 => hfar a h1.le h2⟩

end

/-! ### Splitting and joining -/

section

variable {c : MemConfig} {x y n : UInt64}

private theorem mem_splitElem_next (hn : n = x + (c.mem x).size) (hnx : n ≠ x) (hny : n ≠ y) :
    (splitElem c x y).mem n = { c.mem n with prev := y } := by
  subst hn
  simp only [splitElem, mallocElemInit]
  rw [MemConfig.mem_modify_of_ne _ _ hnx, MemConfig.mem_modify_self, MemConfig.mem_modify_of_ne _ _ hny,
    MemConfig.mem_modify_of_ne _ _ hny]

theorem mem_splitElem_self (hn : n = x + (c.mem x).size) (hnx : n ≠ x) (hyx : y ≠ x) :
    (splitElem c x y).mem x = { c.mem x with size := y - x } := by
  subst hn
  simp only [splitElem, mallocElemInit]
  rw [MemConfig.mem_modify_self, MemConfig.mem_modify_of_ne _ _ hnx.symm, MemConfig.mem_modify_of_ne _ _ hyx.symm,
    MemConfig.mem_modify_of_ne _ _ hyx.symm]

theorem mem_splitElem_new (hn : n = x + (c.mem x).size) (hny : n ≠ y) (hyx : y ≠ x) :
    (splitElem c x y).mem y =
      { heap := (c.mem x).heap, ms := (c.mem x).ms, prev := x, state := .elemFree, pad := 0
        size := (c.mem x).size - (y - x) } := by
  subst hn
  simp only [splitElem, mallocElemInit]
  rw [MemConfig.mem_modify_of_ne _ _ hyx, MemConfig.mem_modify_of_ne _ _ hny.symm, MemConfig.mem_modify_self,
    MemConfig.mem_modify_self]

private theorem mem_splitElem_of_ne {a : UInt64} (hn : n = x + (c.mem x).size) (hx : a ≠ x) (hy : a ≠ y) (ha : a ≠ n) :
    (splitElem c x y).mem a = c.mem a := by
  subst hn
  simp only [splitElem, mallocElemInit]
  rw [MemConfig.mem_modify_of_ne _ _ hx, MemConfig.mem_modify_of_ne _ _ ha, MemConfig.mem_modify_of_ne _ _ hy,
    MemConfig.mem_modify_of_ne _ _ hy]

private theorem mem_joinElem_next (hn : n = y + (c.mem y).size) (hnx : n ≠ x) :
    (joinElem c x y).mem n = { c.mem n with prev := x } := by
  subst hn
  simp only [joinElem]
  rw [MemConfig.mem_modify_self, MemConfig.mem_modify_of_ne _ _ hnx]

private theorem mem_joinElem_self (hn : n = y + (c.mem y).size) (hnx : n ≠ x) :
    (joinElem c x y).mem x = { c.mem x with size := (c.mem x).size + (c.mem y).size } := by
  subst hn
  simp only [joinElem]
  rw [MemConfig.mem_modify_of_ne _ _ hnx.symm, MemConfig.mem_modify_self]

private theorem mem_joinElem_of_ne {a : UInt64} (hn : n = y + (c.mem y).size) (hx : a ≠ x) (ha : a ≠ n) :
    (joinElem c x y).mem a = c.mem a := by
  subst hn
  simp only [joinElem]
  rw [MemConfig.mem_modify_of_ne _ _ ha, MemConfig.mem_modify_of_ne _ _ hx]

end

section

variable {c : MemConfig} {chunks : Nat × Memseg → List UInt64} {p : Nat × Memseg} {l r : List UInt64} {x y : UInt64}

theorem ne_of_toNat_lt {a b : UInt64} (h : a.toNat < b.toNat) : a ≠ b := by
  rintro rfl
  omega

theorem toNat_sub_of_lt {a b : UInt64} (h : a.toNat ≤ b.toNat) : (b - a).toNat = b.toNat - a.toNat :=
  UInt64.toNat_sub_of_le _ _ (UInt64.le_iff_toNat_le.2 h)

/-- The element at `x` is cut into two at `y`. -/
theorem Shape.split (h : Shape c chunks) (hp : p ∈ c.segs) (hchunks : chunks p = l ++ x :: r)
    (hxy : x.toNat < y.toNat) (hy : y.toNat < x.toNat + (c.mem x).size.toNat) (hdvd : 64 ∣ y.toNat) :
    Within c (splitElem c x y) x (x + (c.mem x).size) ∧
      Shape (splitElem c x y) (Function.update chunks p (l ++ x :: y :: r)) := by
  have hchunks' : chunks p = l ++ [x] ++ r := by simpa using hchunks
  have hmem : x ∈ chunks p := by simp [hchunks]
  obtain ⟨n, rest, hplace⟩ := h.place hp hchunks'
  have hnext := hplace.toNat_next
  have hn := eq_add_of_toNat hnext
  rw [← hn]
  have hnx : n ≠ x := (ne_of_toNat_lt (by omega)).symm
  have hny : n ≠ y := (ne_of_toNat_lt (by omega)).symm
  have hyx : y ≠ x := (ne_of_toNat_lt hxy).symm
  have hself := mem_splitElem_self hn hnx hyx
  have hnew := mem_splitElem_new hn hny hyx
  have hlink := mem_splitElem_next hn hnx hny
  have hsub := toNat_sub_of_lt hxy.le
  have hw : Within c (splitElem c x y) x n := by
    refine ⟨rfl, fun a hout ha => mem_splitElem_of_ne hn ?_ ?_ ha, y, hlink⟩
    · rintro rfl
      omega
    · rintro rfl
      omega
  have hc := h.chunked p hp
  have hxdvd := h.dvd ⟨p, hp, hmem⟩
  have hlines := hc.lines x hmem
  have hsize : ((c.mem x).size - (y - x)).toNat = (c.mem x).size.toNat - (y.toNat - x.toNat) := by
    rw [toNat_sub_of_lt (by omega), hsub]
  refine ⟨hw, ?_⟩
  suffices hcut : Shape (splitElem c x y) (Function.update chunks p (l ++ [x, y] ++ r)) by simpa using hcut
  refine h.replace hp hchunks' hplace hw (by rw [hlink]; rfl) ?_ ?_ ?_
  · simp only [List.map_cons, List.map_nil, Tiles, claimOf, hself, hnew, hsub, hsize, true_and]
    omega
  · refine ⟨?_, by rw [hnew], trivial⟩
    rw [hself]
    have hlinked := hc.linked
    rw [hchunks, List.append_assoc, linked_append] at hlinked
    exact hlinked.2.1
  · simp only [List.mem_cons, List.not_mem_nil, or_false]
    rintro z (rfl | rfl)
    · rw [hself]
      refine ⟨hc.heap z hmem, hc.ms z hmem, ?_, hc.state z hmem⟩
      rw [hsub]
      exact Nat.dvd_sub hdvd hxdvd
    · rw [hnew]
      refine ⟨hc.heap x hmem, hc.ms x hmem, ?_, Or.inl rfl⟩
      rw [hsize]
      exact Nat.dvd_sub hlines (Nat.dvd_sub hdvd hxdvd)

/-- The element at `x` is joined with the one behind it. -/
theorem Shape.join (h : Shape c chunks) (hp : p ∈ c.segs) (hchunks : chunks p = l ++ x :: y :: r) :
    y = x + (c.mem x).size ∧ Within c (joinElem c x y) x (y + (c.mem y).size) ∧
      Shape (joinElem c x y) (Function.update chunks p (l ++ x :: r)) := by
  have hchunks' : chunks p = l ++ [x, y] ++ r := by simpa using hchunks
  have hxmem : x ∈ chunks p := by simp [hchunks]
  have hymem : y ∈ chunks p := by simp [hchunks]
  obtain ⟨n, rest, hplace⟩ := h.place hp hchunks'
  obtain ⟨hxnext, hnext⟩ := hplace.toNat_next_two
  have hn := eq_add_of_toNat hnext
  rw [← hn]
  have hxpos := (h.bounds hp hxmem).2.2
  have hypos := (h.bounds hp hymem).2.2
  have hnx : n ≠ x := (ne_of_toNat_lt (by omega)).symm
  have hself := mem_joinElem_self hn hnx
  have hlink := mem_joinElem_next hn hnx
  have hlt := n.toNat_lt
  have hsum : ((c.mem x).size + (c.mem y).size).toNat = (c.mem x).size.toNat + (c.mem y).size.toNat := by
    rw [UInt64.toNat_add]
    exact Nat.mod_eq_of_lt (by omega)
  have hw : Within c (joinElem c x y) x n := by
    refine ⟨rfl, fun a hout ha => mem_joinElem_of_ne hn ?_ ha, x, hlink⟩
    rintro rfl
    omega
  have hc := h.chunked p hp
  refine ⟨eq_add_of_toNat hxnext, hw, ?_⟩
  suffices hjoined : Shape (joinElem c x y) (Function.update chunks p (l ++ [x] ++ r)) by simpa using hjoined
  refine h.replace hp hchunks' hplace hw (by rw [hlink]; rfl) ?_ ?_ ?_
  · simp only [List.map_cons, List.map_nil, Tiles, claimOf, hself, hsum, true_and]
    omega
  · refine ⟨?_, trivial⟩
    rw [hself]
    have hlinked := hc.linked
    rw [hchunks, List.append_assoc, linked_append] at hlinked
    exact hlinked.2.1
  · simp only [List.mem_cons, List.not_mem_nil, or_false]
    rintro z rfl
    rw [hself]
    refine ⟨hc.heap z hxmem, hc.ms z hxmem, ?_, hc.state z hxmem⟩
    rw [hsum]
    exact Nat.dvd_add (hc.lines z hxmem) (hc.lines y hymem)

end

end SoftPatchPanel.Malloc
