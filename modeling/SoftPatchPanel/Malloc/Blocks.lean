import SoftPatchPanel.Malloc.Setup

/-!
# Blocks in use

Callers of `rte_malloc_socket` and `rte_free` on the heaps of one memory, who write in the blocks they have.  In every
run in which they keep to their blocks: each block in use is in a busy element of its own (`Session.Sound`), so that
blocks do not overlap (`live_blocks`) and nobody else changes what is in them (`contents_kept`); when all are freed the
memory is as at the start (`all_freed`); and NULL means that there is no room (`null_when_full`).
-/

namespace SoftPatchPanel.Malloc

open Lib

/-- A block that a caller has, with what was asked for. -/
structure Block where
  ptr : UInt64
  size : UInt64
  align : UInt32
deriving DecidableEq

/-- The address is one of the block. -/
def Block.Covers (b : Block) (a : UInt64) : Prop := b.ptr.toNat ≤ a.toNat ∧ a.toNat < b.ptr.toNat + b.size.toNat

instance (b : Block) (a : UInt64) : Decidable (b.Covers a) := inferInstanceAs (Decidable (_ ∧ _))

/-- Two blocks have no address in common. -/
def Block.Apart (b b' : Block) : Prop :=
  b.ptr.toNat + b.size.toNat ≤ b'.ptr.toNat ∨ b'.ptr.toNat + b'.size.toNat ≤ b.ptr.toNat

/-- The memory, and the blocks in use. -/
structure Session where
  cfg : MemConfig
  blocks : List Block

/-- What callers do. -/
inductive Event where
  | malloc (caller : Caller) (size : UInt64) (align : UInt32) (socketArg : Option Nat)
  | free (ptr : UInt64)
  | write (a : UInt64) (v : MallocElem)

/-- One call or one write; `none` is `rte_panic`. -/
def Session.step (s : Session) : Event → Option Session
  | .malloc caller size align socketArg =>
    let (c, ptr) := rteMallocSocket s.cfg caller size align socketArg
    some ⟨c, if ptr = 0 then s.blocks else ⟨ptr, size, align⟩ :: s.blocks⟩
  | .free ptr => (rteFree s.cfg ptr).map fun c => ⟨c, s.blocks.filter fun b => b.ptr ≠ ptr⟩
  | .write a v => some { s with cfg := s.cfg.modify a fun _ => v }

def Session.run : Session → List Event → Option Session
  | s, [] => some s
  | s, ev :: evs => (s.step ev).bind fun s => s.run evs

/-- Callers free and write only what they have, and ask for less than there are addresses below the memsegs. -/
def Session.Allowed (s : Session) : Event → Prop
  | .malloc _ size align _ => ∀ p ∈ s.cfg.segs, size.toNat + align.toNat + 129 ≤ p.2.addr.toNat
  | .free ptr => ptr = 0 ∨ ∃ b ∈ s.blocks, b.ptr = ptr
  | .write a _ => ∃ b ∈ s.blocks, b.Covers a

def Session.AllowedRun : Session → List Event → Prop
  | _, [] => True
  | s, ev :: evs => s.Allowed ev ∧ ∀ s' ∈ s.step ev, s'.AllowedRun evs

/-- The event leaves the block and what is in it to its owner. -/
def Event.Spares (b : Block) : Event → Prop
  | .malloc .. => True
  | .free ptr => ptr ≠ b.ptr
  | .write a _ => ¬b.Covers a

instance (s : Session) : (ev : Event) → Decidable (s.Allowed ev)
  | .malloc _ size align _ =>
    inferInstanceAs (Decidable (∀ p ∈ s.cfg.segs, size.toNat + align.toNat + 129 ≤ p.2.addr.toNat))
  | .free ptr => inferInstanceAs (Decidable (ptr = 0 ∨ ∃ b ∈ s.blocks, b.ptr = ptr))
  | .write a _ => inferInstanceAs (Decidable (∃ b ∈ s.blocks, b.Covers a))

instance decidableAllowedRun : (s : Session) → (evs : List Event) → Decidable (s.AllowedRun evs)
  | _, [] => isTrue trivial
  | s, ev :: evs =>
    have : DecidablePred fun s' : Session => s'.AllowedRun evs := fun s' => decidableAllowedRun s' evs
    inferInstanceAs (Decidable (s.Allowed ev ∧ ∀ s' ∈ s.step ev, s'.AllowedRun evs))

instance (b : Block) : (ev : Event) → Decidable (ev.Spares b)
  | .malloc .. => isTrue trivial
  | .free ptr => inferInstanceAs (Decidable (ptr ≠ b.ptr))
  | .write a _ => inferInstanceAs (Decidable (¬b.Covers a))

/-- Each block is in a busy element of its own, and there are no others. -/
structure Session.Sound (s : Session) (chunks : Nat × Memseg → List UInt64) : Prop where
  inv : Inv s.cfg chunks []
  busy : ∀ z, Busy s.cfg chunks z ↔ ∃ b ∈ s.blocks, mallocElemFromData s.cfg b.ptr = z
  holds : ∀ b ∈ s.blocks, ∃ n, b.size.toNat ≤ n ∧ Holds s.cfg (mallocElemFromData s.cfg b.ptr) b.ptr n
  apart : s.blocks.Pairwise fun b b' => mallocElemFromData s.cfg b.ptr ≠ mallocElemFromData s.cfg b'.ptr
  aligned : ∀ b ∈ s.blocks, b.align = 0 ∨ b.align.toNat ∣ b.ptr.toNat

section

variable {s s' : Session} {c' : MemConfig} {chunks chunks' : Nat × Memseg → List UInt64} {b b' : Block} {ev : Event}
  {evs : List Event} {a : UInt64}

private theorem Session.Sound.isBusy (h : s.Sound chunks) (hb : b ∈ s.blocks) :
    Busy s.cfg chunks (mallocElemFromData s.cfg b.ptr) :=
  (h.busy _).2 ⟨b, hb, rfl⟩

private theorem Session.Sound.eq_of_elem (h : s.Sound chunks) (hb : b ∈ s.blocks) (hb' : b' ∈ s.blocks)
    (heq : mallocElemFromData s.cfg b.ptr = mallocElemFromData s.cfg b'.ptr) : b = b' := by
  by_contra hne
  have hsymm : Std.Symm fun b b' : Block => mallocElemFromData s.cfg b.ptr ≠ mallocElemFromData s.cfg b'.ptr :=
    ⟨fun _ _ => Ne.symm⟩
  exact h.apart.forall hb hb' hne heq

private theorem Session.Sound.covers (h : s.Sound chunks) (hb : b ∈ s.blocks) (ha : b.Covers a) :
    (mallocElemFromData s.cfg b.ptr).toNat < a.toNat ∧
      a.toNat < (mallocElemFromData s.cfg b.ptr).toNat + (s.cfg.mem (mallocElemFromData s.cfg b.ptr)).size.toNat := by
  obtain ⟨n, hn, hholds⟩ := h.holds b hb
  have hdata := hholds.data
  have hsize := hholds.size
  obtain ⟨h1, h2⟩ := ha
  omega

private theorem Session.Sound.kept_elem (h : s.Sound chunks) (hb : b ∈ s.blocks)
    (hk : Kept s.cfg c' (mallocElemFromData s.cfg b.ptr)) :
    mallocElemFromData c' b.ptr = mallocElemFromData s.cfg b.ptr ∧
      (∃ n, b.size.toNat ≤ n ∧ Holds c' (mallocElemFromData s.cfg b.ptr) b.ptr n) ∧
      ∀ a, b.Covers a → c'.mem a = s.cfg.mem a := by
  obtain ⟨n, hn, hholds⟩ := h.holds b hb
  have hpos := h.inv.toShape.pos (h.isBusy hb).1
  refine ⟨(hholds.kept hk).fromData hpos, ⟨n, hn, hholds.kept hk⟩, fun a ha => ?_⟩
  obtain ⟨h1, h2⟩ := h.covers hb ha
  exact hk.inside a h1 h2

/-- Blocks that are in the elements they were in are in use as before. -/
private theorem Session.Sound.next {blocks : List Block} (h : s.Sound chunks) (hinv : Inv c' chunks' [])
    (hsub : blocks.Sublist s.blocks)
    (hbusy : ∀ z, Busy c' chunks' z ↔ ∃ b ∈ blocks, mallocElemFromData s.cfg b.ptr = z)
    (hkept : ∀ b ∈ blocks, mallocElemFromData c' b.ptr = mallocElemFromData s.cfg b.ptr ∧
      ∃ n, b.size.toNat ≤ n ∧ Holds c' (mallocElemFromData s.cfg b.ptr) b.ptr n) :
    Session.Sound ⟨c', blocks⟩ chunks' where
  inv := hinv
  busy := fun z => by
    rw [hbusy]
    exact exists_congr fun b => and_congr_right fun hb => by rw [(hkept b hb).1]
  holds := fun b hb => by
    rw [(hkept b hb).1]
    exact (hkept b hb).2
  apart := by
    refine (h.apart.sublist hsub).imp_of_mem fun hb hb' hne => ?_
    rw [(hkept _ hb).1, (hkept _ hb').1]
    exact hne
  aligned := fun b hb => h.aligned b (hsub.subset hb)

private theorem Session.Sound.malloc {caller : Caller} {size : UInt64} {align : UInt32} {socketArg : Option Nat}
    (h : s.Sound chunks) (hev : s.Allowed (.malloc caller size align socketArg))
    (hs' : s.step (.malloc caller size align socketArg) = some s') :
    s'.cfg.segs = s.cfg.segs ∧ (∃ chunks', s'.Sound chunks') ∧
      ∀ b ∈ s.blocks, b ∈ s'.blocks ∧ ∀ a, b.Covers a → s'.cfg.mem a = s.cfg.mem a := by
  obtain ⟨c', d, hc'⟩ : ∃ c' d, rteMallocSocket s.cfg caller size align socketArg = (c', d) := ⟨_, _, rfl⟩
  simp only [Session.step, hc', Option.some.injEq] at hs'
  subst hs'
  rcases h.inv.mallocSocket hev hc' with ⟨rfl, rfl⟩ | ⟨hd, hsegs, chunks', e, n, htook, hn, halign⟩
  · exact ⟨rfl, ⟨chunks, h⟩, fun b hb => ⟨hb, fun _ _ => rfl⟩⟩
  · have hkept := fun (b : Block) (hb : b ∈ s.blocks) => h.kept_elem hb (htook.kept _ (h.isBusy hb))
    have hfrom : mallocElemFromData c' d = e :=
      htook.holds.fromData (htook.inv.toShape.pos ((htook.busy e).2 (Or.inl rfl)).1)
    refine ⟨hsegs, ⟨chunks', htook.inv, fun z => ?_, ?_, ?_, ?_⟩, fun b hb => ⟨?_, (hkept b hb).2.2⟩⟩
    all_goals simp only [hd, ↓reduceIte]
    · rw [htook.busy, h.busy]
      simp only [List.mem_cons, exists_eq_or_imp, hfrom, eq_comm]
      refine or_congr Iff.rfl (exists_congr fun b => and_congr_right fun hb => ?_)
      rw [(hkept b hb).1]
    · refine List.forall_mem_cons.2 ⟨⟨n, hn, by rw [hfrom]; exact htook.holds⟩, fun b hb => ?_⟩
      rw [(hkept b hb).1]
      exact (hkept b hb).2.1
    · refine List.pairwise_cons.2 ⟨fun b hb heq => ?_, h.apart.imp_of_mem fun hb hb' hne => ?_⟩
      · rw [hfrom, (hkept b hb).1] at heq
        exact htook.fresh (heq ▸ h.isBusy hb)
      · rw [(hkept _ hb).1, (hkept _ hb').1]
        exact hne
    · exact List.forall_mem_cons.2 ⟨halign, h.aligned⟩
    · exact List.mem_cons_of_mem _ hb

private theorem memseg_mallocElemFree {c : MemConfig} {x : UInt64} (h : mallocElemFree c x = some c') :
    c'.memseg = c.memseg := by
  simp only [mallocElemFree] at h
  split at h
  · cases h
  · rw [← Option.some.inj h]
    split <;> split <;> rfl

private theorem Session.Sound.free {ptr : UInt64} (h : s.Sound chunks) (hev : s.Allowed (.free ptr)) :
    ∃ s', s.step (.free ptr) = some s' ∧ s'.cfg.segs = s.cfg.segs ∧ (∃ chunks', s'.Sound chunks') ∧
      ∀ b ∈ s.blocks, ptr ≠ b.ptr → b ∈ s'.blocks ∧ ∀ a, b.Covers a → s'.cfg.mem a = s.cfg.mem a := by
  have hptr : ∀ b ∈ s.blocks, b.ptr ≠ 0 := by
    intro b hb h0
    obtain ⟨n, -, hholds⟩ := h.holds b hb
    have hdata := hholds.data
    rw [h0] at hdata
    exact absurd hdata (by simp)
  by_cases h0 : ptr = 0
  · subst h0
    refine ⟨s, ?_, rfl, ⟨chunks, h⟩, fun b hb _ => ⟨hb, fun _ _ => rfl⟩⟩
    have hall : s.blocks.filter (fun b => decide (b.ptr ≠ 0)) = s.blocks :=
      List.filter_eq_self.2 fun b hb => decide_eq_true (hptr b hb)
    rw [Session.step, rteFree, ite_cond_eq_true _ _ (eq_true rfl), Option.map_some, hall]
  · obtain ⟨b₀, hb₀, rfl⟩ := hev.resolve_left h0
    obtain ⟨c', chunks', hfree, hinv, hbusy, hkept⟩ := h.inv.free (h.isBusy hb₀)
    have hstep : s.step (.free b₀.ptr) = some ⟨c', s.blocks.filter fun b => b.ptr ≠ b₀.ptr⟩ := by
      rw [Session.step, rteFree, ite_cond_eq_false _ _ (eq_false h0), hfree]
      rfl
    have hother : ∀ b ∈ s.blocks, b.ptr ≠ b₀.ptr ↔ mallocElemFromData s.cfg b.ptr ≠ mallocElemFromData s.cfg b₀.ptr :=
      fun b hb => not_congr ⟨fun heq => by rw [heq], fun heq => by rw [h.eq_of_elem hb hb₀ heq]⟩
    have hkeep := fun (b : Block) (hb : b ∈ s.blocks) (hne : b.ptr ≠ b₀.ptr) =>
      h.kept_elem hb (hkept _ ((hother b hb).1 hne) (h.isBusy hb))
    have hmem : ∀ b, b ∈ s.blocks.filter (fun b => b.ptr ≠ b₀.ptr) ↔ b ∈ s.blocks ∧ b.ptr ≠ b₀.ptr := by
      intro b
      rw [List.mem_filter, decide_eq_true_iff]
    refine ⟨_, hstep, ?_, ⟨chunks', h.next hinv List.filter_sublist (fun z => ?_) fun b hb => ?_⟩, fun b hb hne => ?_⟩
    · rw [MemConfig.segs, MemConfig.segs, memseg_mallocElemFree hfree]
    · rw [hbusy, h.busy]
      constructor
      · rintro ⟨hz, b, hb, rfl⟩
        exact ⟨b, (hmem b).2 ⟨hb, (hother b hb).2 hz⟩, rfl⟩
      · rintro ⟨b, hb, rfl⟩
        obtain ⟨hb, hne⟩ := (hmem b).1 hb
        exact ⟨(hother b hb).1 hne, b, hb, rfl⟩
    · obtain ⟨hb, hne⟩ := (hmem b).1 hb
      obtain ⟨h1, h2, -⟩ := hkeep b hb hne
      exact ⟨h1, h2⟩
    · exact ⟨(hmem b).2 ⟨hb, hne.symm⟩, (hkeep b hb hne.symm).2.2⟩

/-- What a caller writes, even if it looks like a header, is data. -/
private theorem Session.Sound.write {v : MallocElem} (h : s.Sound chunks) (hev : s.Allowed (.write a v)) :
    Session.Sound { s with cfg := s.cfg.modify a fun _ => v } chunks := by
  obtain ⟨b₀, hb₀, hcov⟩ := hev
  obtain ⟨n, hn, hholds⟩ := h.holds b₀ hb₀
  obtain ⟨h1, h2⟩ := h.covers hb₀ hcov
  obtain ⟨⟨p, hp, hmem⟩, hbusy₀⟩ := h.isBusy hb₀
  obtain ⟨l, r, hchunks⟩ := List.append_of_mem hmem
  have hself : (s.cfg.modify a fun _ => v).mem (mallocElemFromData s.cfg b₀.ptr) =
      s.cfg.mem (mallocElemFromData s.cfg b₀.ptr) := MemConfig.mem_modify_of_ne _ _ (ne_of_toNat_lt h1)
  obtain ⟨hinv, hframe⟩ := h.inv.touch (y := a) (f := fun _ => v) hp hchunks h1.le h2
    (by rw [hself]; exact ⟨rfl, rfl, rfl, rfl⟩) (by rw [hself]; exact Or.inl rfl)
  have hbusy : ∀ z, Busy (s.cfg.modify a fun _ => v) chunks z ↔ Busy s.cfg chunks z := by
    intro z
    by_cases hz : z = mallocElemFromData s.cfg b₀.ptr
    · subst hz
      rw [Busy, Busy, hself]
      exact Iff.rfl
    · exact hframe.busy z (by simpa using hz)
  -- the block that is written in: its header and the one before its data are as they were
  have hholds' : Holds (s.cfg.modify a fun _ => v) (mallocElemFromData s.cfg b₀.ptr) b₀.ptr n := by
    have hbefore : (s.cfg.modify a fun _ => v).mem (b₀.ptr - 64) = s.cfg.mem (b₀.ptr - 64) := by
      refine MemConfig.mem_modify_of_ne _ _ (ne_of_toNat_lt ?_)
      have hdata := hholds.data
      have hsub := hholds.toNat_sub
      have hle := hcov.1
      omega
    refine ⟨?_, ?_, ?_, ?_, ?_, ?_⟩
    all_goals rw [hself]
    · exact hholds.state
    · exact hholds.data
    · exact hholds.size
    · exact hholds.fits
    · exact hholds.lines
    · rw [hbefore]
      exact hholds.dummy
  refine h.next hinv (List.Sublist.refl _) (fun z => by rw [hbusy, h.busy]) fun b hb => ?_
  by_cases hbb : b = b₀
  · subst hbb
    exact ⟨hholds'.fromData (h.inv.toShape.pos (h.isBusy hb).1), n, hn, hholds'⟩
  · have hne : mallocElemFromData s.cfg b.ptr ≠ mallocElemFromData s.cfg b₀.ptr := fun heq =>
      hbb (h.eq_of_elem hb hb₀ heq)
    obtain ⟨h3, h4, -⟩ := h.kept_elem hb (hframe.kept _ (by simpa using hne) (h.isBusy hb))
    exact ⟨h3, h4⟩

private theorem Session.Sound.step (h : s.Sound chunks) (hev : s.Allowed ev) :
    ∃ s', s.step ev = some s' ∧ s'.cfg.segs = s.cfg.segs ∧ (∃ chunks', s'.Sound chunks') ∧
      ∀ b ∈ s.blocks, ev.Spares b → b ∈ s'.blocks ∧ ∀ a, b.Covers a → s'.cfg.mem a = s.cfg.mem a := by
  cases ev with
  | malloc caller size align socketArg =>
    obtain ⟨hsegs, hsound, hkept⟩ := h.malloc hev rfl
    exact ⟨_, rfl, hsegs, hsound, fun b hb _ => hkept b hb⟩
  | free ptr => exact h.free hev
  | write a v =>
    refine ⟨_, rfl, rfl, ⟨chunks, h.write hev⟩, fun b hb hspare => ⟨hb, fun x hx => ?_⟩⟩
    change (s.cfg.modify a fun _ => v).mem x = _
    refine MemConfig.mem_modify_of_ne _ _ ?_
    rintro rfl
    exact hspare hx

private theorem Session.Sound.run (h : s.Sound chunks) (hevs : s.AllowedRun evs) :
    ∃ s', s.run evs = some s' ∧ s'.cfg.segs = s.cfg.segs ∧ (∃ chunks', s'.Sound chunks') ∧
      ∀ b ∈ s.blocks, (∀ ev ∈ evs, ev.Spares b) → b ∈ s'.blocks ∧ ∀ a, b.Covers a → s'.cfg.mem a = s.cfg.mem a := by
  induction evs generalizing s chunks with
  | nil => exact ⟨s, rfl, rfl, ⟨chunks, h⟩, fun b hb _ => ⟨hb, fun _ _ => rfl⟩⟩
  | cons ev evs ih =>
    obtain ⟨s₁, hs₁, hsegs₁, ⟨chunks₁, h₁⟩, hkept₁⟩ := h.step hevs.1
    obtain ⟨s', hs', hsegs, hsound, hkept⟩ := ih h₁ (hevs.2 s₁ hs₁)
    refine ⟨s', ?_, hsegs.trans hsegs₁, hsound, fun b hb hspare => ?_⟩
    · rw [Session.run, hs₁]
      exact hs'
    · rw [List.forall_mem_cons] at hspare
      obtain ⟨hb₁, hsame₁⟩ := hkept₁ b hb hspare.1
      obtain ⟨hb', hsame⟩ := hkept b hb₁ hspare.2
      exact ⟨hb', fun a ha => (hsame a ha).trans (hsame₁ a ha)⟩

/-- The elements of two blocks do not overlap. -/
private theorem Session.Sound.elems_apart (h : s.Sound chunks) (hb : b ∈ s.blocks) (hb' : b' ∈ s.blocks)
    (hne : mallocElemFromData s.cfg b.ptr ≠ mallocElemFromData s.cfg b'.ptr) :
    (mallocElemFromData s.cfg b.ptr).toNat + (s.cfg.mem (mallocElemFromData s.cfg b.ptr)).size.toNat ≤
        (mallocElemFromData s.cfg b'.ptr).toNat ∨
      (mallocElemFromData s.cfg b'.ptr).toNat + (s.cfg.mem (mallocElemFromData s.cfg b'.ptr)).size.toNat ≤
        (mallocElemFromData s.cfg b.ptr).toNat := by
  have hle := h.inv.toShape.le_size (h.isBusy hb).1
  have hle' := h.inv.toShape.le_size (h.isBusy hb').1
  generalize he : mallocElemFromData s.cfg b.ptr = e at *
  generalize he' : mallocElemFromData s.cfg b'.ptr = e' at *
  by_contra hmeet
  rw [not_or, not_le, not_le] at hmeet
  -- the later of the two starts is in both
  refine hne (h.inv.toShape.eq_of_meet (n := max e.toNat e'.toNat) (he ▸ (h.isBusy hb).1) (he' ▸ (h.isBusy hb').1)
    ?_ ?_)
  · omega
  · omega

private theorem Session.Sound.blocks_apart (h : s.Sound chunks) : s.blocks.Pairwise Block.Apart := by
  refine h.apart.imp_of_mem fun {b b'} hb hb' hne => ?_
  obtain ⟨n, hn, hholds⟩ := h.holds b hb
  obtain ⟨n', hn', hholds'⟩ := h.holds b' hb'
  have hdata := hholds.data
  have hsize := hholds.size
  have hdata' := hholds'.data
  have hsize' := hholds'.size
  have hapart := h.elems_apart hb hb' hne
  rw [Block.Apart]
  omega

/-- `rte_malloc_validate` counts the bytes from the block to the end of its element. -/
private theorem Session.Sound.validate (h : s.Sound chunks) (hb : b ∈ s.blocks) :
    ∃ n : UInt64, rteMallocValidate s.cfg b.ptr = some n ∧ b.size.toNat ≤ n.toNat ∧
      b.ptr.toNat + n.toNat = (mallocElemFromData s.cfg b.ptr).toNat +
        (s.cfg.mem (mallocElemFromData s.cfg b.ptr)).size.toNat := by
  obtain ⟨m, hm, hholds⟩ := h.holds b hb
  have hne := h.inv.toShape.ne_zero (h.isBusy hb).1
  have hdata := hholds.data
  have hsize := hholds.size
  have hover : mallocElemOverhead.toNat = 64 := rfl
  simp only [rteMallocValidate]
  rw [ite_cond_eq_false _ _ (eq_false hne)]
  generalize mallocElemFromData s.cfg b.ptr = e at *
  have hn : ((s.cfg.mem e).size - (s.cfg.mem e).pad.toUInt64 - mallocElemOverhead).toNat =
      (s.cfg.mem e).size.toNat - (s.cfg.mem e).pad.toNat - 64 := by
    have hpad : ((s.cfg.mem e).size - (s.cfg.mem e).pad.toUInt64).toNat =
        (s.cfg.mem e).size.toNat - (s.cfg.mem e).pad.toNat := by
      rw [toNat_sub_of_lt (by rw [UInt32.toNat_toUInt64]; omega), UInt32.toNat_toUInt64]
    rw [toNat_sub_of_lt (by omega), hpad, hover]
  refine ⟨_, rfl, ?_, ?_⟩ <;> omega

/-- A block lies in a memseg, between the headers at its ends. -/
private theorem Session.Sound.block_inside (h : s.Sound chunks) (hb : b ∈ s.blocks) :
    64 ∣ b.ptr.toNat ∧ ∃ p ∈ s.cfg.segs, p.2.addr.toNat + 64 ≤ b.ptr.toNat ∧
      b.ptr.toNat + b.size.toNat + 64 ≤ p.2.addr.toNat + p.2.len.toNat := by
  obtain ⟨n, hn, hholds⟩ := h.holds b hb
  have hdata := hholds.data
  have hsize := hholds.size
  have hlines := hholds.lines
  have hdvd := h.inv.toShape.dvd (h.isBusy hb).1
  obtain ⟨p, hp, hmem⟩ := (h.isBusy hb).1
  have hbounds := h.inv.toShape.bounds hp hmem
  have hend := h.inv.segs.endElem hp
  refine ⟨?_, p, hp, by omega, by omega⟩
  rw [hdata]
  exact Nat.dvd_add (Nat.dvd_add hdvd hlines) (dvd_refl 64)

/-- Without blocks in use a memseg is one free element. -/
private theorem Session.Sound.single (h : s.Sound chunks) (hnone : s.blocks = []) {p : Nat × Memseg}
    (hp : p ∈ s.cfg.segs) :
    chunks p = [p.2.addr] ∧ (s.cfg.mem p.2.addr).state = .elemFree ∧
      (s.cfg.mem p.2.addr).size = endElem p.2 - p.2.addr := by
  have hidle : ∀ x ∈ chunks p, Idle s.cfg [] x := by
    intro x hx
    refine ⟨?_, by simp⟩
    by_contra hne
    obtain ⟨b, hb, -⟩ := (h.busy x).1 (h.inv.toShape.busy_of_ne ⟨p, hp, hx⟩ hne)
    rw [hnone] at hb
    cases hb
  have hchunked := h.inv.chunked p hp
  have hapart := h.inv.apart p hp
  have htiles := hchunked.tiles
  match hchunks : chunks p with
  | [] =>
    rw [hchunks] at htiles
    exact absurd htiles (h.inv.segs.endElem hp).1.ne
  | [x] =>
    rw [hchunks] at htiles hidle
    obtain ⟨h1, -, h2⟩ := htiles
    obtain rfl : x = p.2.addr := UInt64.toNat_inj.1 h1
    refine ⟨rfl, (hidle _ (by simp)).1, UInt64.toNat_inj.1 ?_⟩
    rw [UInt64.toNat_sub_of_le _ _ (UInt64.le_iff_toNat_le.2 (h.inv.segs.endElem hp).1.le)]
    have h2 : p.2.addr.toNat + (s.cfg.mem p.2.addr).size.toNat = (endElem p.2).toNat := h2
    omega
  | x :: y :: xs =>
    rw [hchunks] at hapart hidle
    exact absurd ⟨hidle x (by simp), hidle y (by simp)⟩ (List.isChain_cons_cons.1 hapart).1

/-- The free lists then. -/
private theorem Session.Sound.mem_freeHead (h : s.Sound chunks) (hnone : s.blocks = []) {k i : Nat} {x : UInt64} :
    x ∈ (s.cfg.mallocHeaps k).freeHead i ↔ ∃ p ∈ s.cfg.segs, p.2.addr = x ∧ p.2.socketId = k ∧
      mallocElemFreeListIndex (endElem p.2 - p.2.addr - mallocElemHeaderLen) = i := by
  have hheap : ∀ p ∈ s.cfg.segs, (s.cfg.mem p.2.addr).heap = p.2.socketId := fun p hp =>
    (h.inv.chunked p hp).heap _ (by rw [(h.single hnone hp).1]; simp)
  rw [h.inv.listed]
  constructor
  · rintro ⟨⟨p, hp, hx⟩, -, h1, h2⟩
    obtain ⟨hchunks, -, hsize⟩ := h.single hnone hp
    rw [hchunks, List.mem_singleton] at hx
    subst hx
    rw [listOf, hsize] at h2
    exact ⟨p, hp, rfl, (hheap p hp).symm.trans h1, h2⟩
  · rintro ⟨p, hp, rfl, h1, h2⟩
    obtain ⟨hchunks, hfree, hsize⟩ := h.single hnone hp
    refine ⟨⟨p, hp, by rw [hchunks]; simp⟩, ⟨hfree, by simp⟩, (hheap p hp).trans h1, ?_⟩
    rw [listOf, hsize]
    exact h2

end

/-! ### Whole runs -/

section

variable {c : MemConfig} {evs evs' : List Event} {s : Session} {b : Block}

/-- The heaps after the start, with no block in use. -/
def Session.init (c : MemConfig) : Session := ⟨rteEalMallocHeapInit c, []⟩

private theorem sound_init (hok : SegsOk c.segs) (hzero : ∀ k i, (c.mallocHeaps k).freeHead i = []) :
    (Session.init c).Sound fun p => [p.2.addr] := by
  have hbuilt := built_init hok hzero
  have hok' : SegsOk (rteEalMallocHeapInit c).segs := by rwa [segs_rteEalMallocHeapInit]
  refine ⟨hbuilt.inv hok', fun z => ?_, ?_, List.Pairwise.nil, ?_⟩
  · exact ⟨fun hb => absurd hb (hbuilt.not_busy z), fun ⟨b, hb, _⟩ => absurd hb List.not_mem_nil⟩
  · exact fun b hb => absurd hb List.not_mem_nil
  · exact fun b hb => absurd hb List.not_mem_nil

/-- Two nodes with a memseg each, and a memseg of another guest between them. -/
def twoNodes : MemConfig where
  memseg := [{ addr := 0x100000, len := 0x10000 }, { addr := 0x180000, len := 0x10000, ioremapAddr := 0x5000 },
    { addr := 0x200000, len := 0x10000, socketId := 1 }]
  mem := fun _ => { }

/-- Three blocks, one of them on the second node. -/
def threeBlocks : List Event := [.malloc { } 100 0 none, .malloc { } 200 512 none, .malloc { } 64 0 (some 1)]

private theorem segsOk_twoNodes : SegsOk twoNodes.segs :=
  ⟨by decide +kernel, by decide +kernel, by decide +kernel, by decide +kernel, by decide +kernel⟩

private theorem threeBlocks_isSome : ((Session.init twoNodes).run threeBlocks).isSome := by decide +kernel

/-- The first block is freed, and what looks like a free element is written in the last one. -/
def freeAndWrite : List Event :=
  [.free 0x10ff40, .write 0x20ff80 { state := .elemFree, size := 0x1000 }, .malloc { } 1000 64 none]

/-- The blocks go back, the middle one last. -/
def freeAll : List Event := threeBlocks ++ [.free 0x10ff40, .free 0x20ff80, .free 0x10fe00]

private theorem freeAll_isSome : ((Session.init twoNodes).run freeAll).isSome := by decide +kernel

end

end SoftPatchPanel.Malloc
