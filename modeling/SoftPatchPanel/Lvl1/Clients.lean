import SoftPatchPanel.Lvl1.Ports

/-!
# The number of clients

`parse_num_clients` of `pri_lvl1` reads the argument of `-n` with `strtoul`, checks that it is not 0 and keeps its last
eight bits.  `do_stats_display` runs over that many elements of arrays for `MAX_CLIENTS` clients.  Accepted arguments
give the requested number, and no access lies behind an array, exactly when the last `-n` asks for 1 to
`MAX_CLIENTS` clients (`numClients_iff`).
-/

namespace SoftPatchPanel.Lvl1

open Lib

/-- `MAX_CLIENTS`, the dimension of `tx_stats`, `client_tx` and `client_tx_drop`. -/
def maxClients : Nat := 16

/-! ### The requested number -/

/-- The number that a text stands for: space characters, a sign and decimal digits. -/
def decimalValue (s : CStr) : Int :=
  let (negative, t) := splitSign (s.dropWhile isSpaceChar)
  let v : Int := valueOf 10 (t.takeWhile (fun c => digitVal c < 10))
  if negative then -v else v

/-- The argument of an option `-n`. -/
def Opt.clients : Opt → Option CStr
  | .n optarg => some optarg
  | _ => none

/-- The argument of the last `-n`. -/
def lastClients (opts : List Opt) : Option CStr := (opts.filterMap Opt.clients).getLast?

/-- `strtoul` keeps a small positive number as it is. -/
private theorem strtoull_toUInt8 {s : CStr} (h1 : 1 ≤ decimalValue s) (h2 : decimalValue s < 256) :
    ((strtoull 10 s).1.toUInt8.toNat : Int) = decimalValue s := by
  unfold decimalValue at h1 h2 ⊢
  unfold strtoull
  obtain ⟨negative, t, hsign⟩ : ∃ negative t, splitSign (s.dropWhile isSpaceChar) = (negative, t) := ⟨_, _, rfl⟩
  rw [hsign] at h1 h2 ⊢
  simp only [show ¬(10 = 16) by decide, ↓reduceIte] at h1 h2 ⊢
  cases negative with
  | true =>
    simp only [↓reduceIte] at h1
    omega
  | false =>
    simp only [Bool.false_eq_true, ↓reduceIte] at h1 h2 ⊢
    have hne : t.takeWhile (fun c => decide (digitVal c < 10)) ≠ [] := by
      intro hnil
      rw [hnil] at h1
      simp [valueOf] at h1
    obtain ⟨v, hv⟩ : ∃ v, v = valueOf 10 (t.takeWhile (fun c => decide (digitVal c < 10))) := ⟨_, rfl⟩
    rw [← hv] at h1 h2 ⊢
    rw [if_neg hne, if_neg (by omega)]
    simp only [UInt64.toNat_toUInt8, UInt64.toNat_ofNat']
    omega

private theorem parseOpt_numClients {maxPorts : UInt8} {st st' : Process × PortInfo} {opt : Opt}
    (h : parseOpt maxPorts st opt = some st') :
    st'.1.numClients = (opt.clients.map fun arg => (strtoull 10 arg).1.toUInt8).getD st.1.numClients := by
  cases opt with
  | p optarg =>
    obtain ⟨ports, -, rfl⟩ := Option.map_eq_some_iff.1 h
    rfl
  | n optarg =>
    obtain ⟨self, hself, rfl⟩ := Option.map_eq_some_iff.1 h
    simp only [parseNumClients] at hself
    split_ifs at hself
    cases hself
    rfl
  | s optarg =>
    obtain ⟨self, hself, rfl⟩ := Option.map_eq_some_iff.1 h
    unfold parseServer at hself
    split_ifs at hself
    split at hself
    · cases hself
      rfl
    · cases hself
  | unknown => cases h

/-- The last `-n` decides. -/
private theorem parseOpts_numClients {maxPorts : UInt8} {opts : List Opt} {st st' : Process × PortInfo}
    (h : opts.foldlM (parseOpt maxPorts) st = some st') :
    st'.1.numClients = ((lastClients opts).map fun arg => (strtoull 10 arg).1.toUInt8).getD st.1.numClients := by
  induction opts using List.reverseRecOn generalizing st' with
  | nil =>
    cases h
    rfl
  | append_singleton opts opt ih =>
    rw [List.foldlM_append] at h
    obtain ⟨mid, hmid, hlast⟩ := Option.bind_eq_some_iff.1 h
    obtain ⟨st'', hopt, hend⟩ := Option.bind_eq_some_iff.1 hlast
    cases hend
    rw [parseOpt_numClients hopt, ih hmid]
    unfold lastClients
    rw [List.filterMap_append]
    cases hc : opt.clients with
    | none => simp [hc]
    | some arg => simp [hc]

/-! ### The statistics -/

/-- An access to one of the arrays that have an element for each client. -/
inductive Access where
  | txStats (i : Nat)
  | clientTx (i : Nat)
  | clientTxDrop (i : Nat)
deriving DecidableEq

/-- The index of an access. -/
def Access.index : Access → Nat
  | .txStats i => i
  | .clientTx i => i
  | .clientTxDrop i => i

/-- The accesses of `do_stats_display` to those arrays: the loop that adds up the statistics of all ports for each
client, and the loop that prints them. -/
def doStatsDisplay (numClients numPorts : UInt8) : List Access :=
  ((List.range numClients.toNat).flatMap fun i =>
    .txStats i :: (List.range numPorts.toNat).flatMap fun _ => [.clientTx i, .clientTxDrop i]) ++
  (List.range numClients.toNat).flatMap fun i => [.clientTx i, .clientTxDrop i]

private theorem doStatsDisplay_inside_iff (numClients numPorts : UInt8) :
    (∀ a ∈ doStatsDisplay numClients numPorts, a.index < maxClients) ↔ numClients.toNat ≤ maxClients := by
  constructor
  · intro h
    by_contra hlt
    -- the last client is printed
    have hmem : Access.clientTx (numClients.toNat - 1) ∈ doStatsDisplay numClients numPorts := by
      refine List.mem_append_right _ (List.mem_flatMap.2 ⟨numClients.toNat - 1, List.mem_range.2 (by omega), ?_⟩)
      exact List.mem_cons_self
    have := h _ hmem
    simp only [Access.index] at this
    omega
  · intro hle a ha
    have hi : a.index < numClients.toNat := by
      rcases List.mem_append.1 ha with ha | ha
      · obtain ⟨i, hi, ha⟩ := List.mem_flatMap.1 ha
        rcases List.mem_cons.1 ha with rfl | ha
        · exact List.mem_range.1 hi
        · obtain ⟨-, -, ha⟩ := List.mem_flatMap.1 ha
          rcases List.mem_pair.1 ha with rfl | rfl
          · exact List.mem_range.1 hi
          · exact List.mem_range.1 hi
      · obtain ⟨i, hi, ha⟩ := List.mem_flatMap.1 ha
        rcases List.mem_pair.1 ha with rfl | rfl
        · exact List.mem_range.1 hi
        · exact List.mem_range.1 hi
    omega

/-- For accepted arguments, the number of clients is the requested one and the statistics stay inside the arrays
exactly when the last `-n` asks for 1 to `MAX_CLIENTS` clients.  Other numbers are accepted as well, unless `strtoul`
or the cast to eight bits makes them 0. -/
theorem numClients_iff {maxPorts : UInt8} {ports : PortInfo} {opts : List Opt} {st : Process × PortInfo}
    (h : parseAppArgs maxPorts ports opts = some st) :
    ∃ arg, lastClients opts = some arg ∧
      (((st.1.numClients.toNat : Int) = decimalValue arg ∧
          ∀ numPorts, ∀ a ∈ doStatsDisplay st.1.numClients numPorts, a.index < maxClients) ↔
        1 ≤ decimalValue arg ∧ decimalValue arg ≤ maxClients) := by
  have hnum := parseOpts_numClients (parseAppArgs_some h)
  have hne : st.1.numClients ≠ 0 := parseAppArgs_numClients h
  simp only [doStatsDisplay_inside_iff, forall_const]
  cases hlast : lastClients opts with
  | none =>
    rw [hlast] at hnum
    exact absurd hnum hne
  | some arg =>
    rw [hlast] at hnum
    simp only [Option.map_some, Option.getD_some] at hnum
    refine ⟨arg, rfl, ?_⟩
    have hpos : 0 < st.1.numClients.toNat := by
      refine Nat.pos_of_ne_zero fun h0 => hne ?_
      rw [← UInt8.toNat_inj, h0]
      rfl
    constructor
    · rintro ⟨heq, hle⟩
      omega
    · rintro ⟨h1, h2⟩
      have hsame := strtoull_toUInt8 h1 (by simp only [maxClients] at h2; omega)
      rw [← hnum] at hsame
      omega

theorem numClients_four :
    ∃ st, parseAppArgs 2 {} [.n "300".toList, .p "3".toList, .n "4".toList] = some st ∧
      (st.1.numClients.toNat : Int) = decimalValue "4".toList ∧
      ∀ numPorts, ∀ a ∈ doStatsDisplay st.1.numClients numPorts, a.index < maxClients := by
  obtain ⟨st, hst⟩ : ∃ st, parseAppArgs 2 {} [.n "300".toList, .p "3".toList, .n "4".toList] = some st :=
    Option.isSome_iff_exists.1 (by decide +kernel)
  obtain ⟨arg, harg, hiff⟩ := numClients_iff hst
  cases harg
  exact ⟨st, hst, hiff.2 (by decide +kernel)⟩

/-- 257 clients become one, -1 become 255, and with 17 clients the statistics reach behind the arrays. -/
theorem numClients_outside :
    (parseAppArgs 2 {} [.p "3".toList, .n "257".toList]).map (fun st => st.1.numClients) = some 1 ∧
    (parseAppArgs 2 {} [.p "3".toList, .n "-1".toList]).map (fun st => st.1.numClients) = some 255 ∧
    (parseAppArgs 2 {} [.p "3".toList, .n "17".toList]).map (fun st => st.1.numClients) = some 17 ∧
    ∃ a ∈ doStatsDisplay 17 2, a.index = maxClients := by
  refine ⟨by decide +kernel, by decide +kernel, by decide +kernel, .txStats 16, by decide +kernel, rfl⟩

end SoftPatchPanel.Lvl1
