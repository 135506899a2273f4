import SoftPatchPanel.Lib.Strtoull
import SoftPatchPanel.EthDev
import Mathlib.Data.List.Perm.Subperm
import Mathlib.Logic.Function.Basic

/-!
# The shared list of ports

`parse_app_args` of `pri_lvl1` adds the ports of each mask to a structure in shared memory, which only a primary clears.
The list is a set at all times exactly when the masks of all options of all starts ask for each port at most once
(`staysSet_iff`).
-/

namespace SoftPatchPanel.Lvl1

open Lib EthDev

/-! ### The port info -/

/-- `struct port_info` as far as the arguments change it; `id` gives the bytes from the start of the array on, of which
the first `RTE_MAX_ETHPORTS` belong to it. -/
structure PortInfo where
  numPorts : UInt8 := 0
  id : UInt8 → UInt8 := fun _ => 0

/-- `ports->id[ports->num_ports++] = count`. -/
def PortInfo.add (ports : PortInfo) (count : UInt8) : PortInfo where
  numPorts := ports.numPorts + 1
  id := Function.update ports.id ports.numPorts count

/-- The elements of the list. -/
def PortInfo.list (ports : PortInfo) : List UInt8 :=
  (List.range ports.numPorts.toNat).map fun i => ports.id (UInt8.ofNat i)

/-- The loop of `parse_portmask` over the bits of the mask; a mask has at most `fuel` bits. -/
def markPorts (maxPorts : UInt8) : (fuel : Nat) → UInt64 → UInt8 → PortInfo → PortInfo
  | 0, _, _, ports => ports
  | fuel + 1, pm, count, ports =>
    if pm = 0 then ports
    else
      markPorts maxPorts fuel (pm >>> 1) (count + 1)
        (if pm &&& 1 = 1 then if maxPorts ≤ count then ports else ports.add count else ports)

/-- `parse_portmask`. -/
def parsePortmask (maxPorts : UInt8) (portmask : CStr) (ports : PortInfo) : Option PortInfo :=
  if portmask = [] then none
  else
    let (pm, rest) := strtoull 16 portmask
    if rest ≠ [] ∨ pm = 0 then none else some (markPorts maxPorts 64 pm 0 ports)

/-! ### The arguments -/

/-- The variables of a process that the arguments set. -/
structure Process where
  numClients : UInt8 := 0
  serverIp : Option CStr := none
  port : Int := 0

/-- `parse_num_clients`. -/
def parseNumClients (clients : CStr) (self : Process) : Option Process :=
  if clients = [] then none
  else
    let (temp, rest) := strtoull 10 clients
    if rest ≠ [] ∨ temp = 0 then none else some { self with numClients := temp.toUInt8 }

/-- `parse_server`. -/
def parseServer (serverPort : CStr) (self : Process) : Option Process :=
  if serverPort = [] then none
  else
    match strtok ':' serverPort with
    | serverIp :: token :: _ => some { self with serverIp := some serverIp, port := atoi token }
    | _ => none

/-- What `getopt_long` returns: an option with its argument, or the character for an error. -/
inductive Opt where
  | p (optarg : CStr)
  | n (optarg : CStr)
  | s (optarg : CStr)
  | unknown

/-- One round of the loop of `parse_app_args`. -/
def parseOpt (maxPorts : UInt8) (st : Process × PortInfo) : Opt → Option (Process × PortInfo)
  | .p optarg => (parsePortmask maxPorts optarg st.2).map (st.1, ·)
  | .n optarg => (parseNumClients optarg st.1).map (·, st.2)
  | .s optarg => (parseServer optarg st.1).map (·, st.2)
  | .unknown => none

/-- `parse_app_args` in a new process. -/
def parseAppArgs (maxPorts : UInt8) (ports : PortInfo) (opts : List Opt) : Option (Process × PortInfo) := do
  let st ← opts.foldlM (parseOpt maxPorts) ({}, ports)
  if st.2.numPorts = 0 ∨ st.1.numClients = 0 then none else some st

/-- The port info after a primary, which clears it, and the secondaries that are started after it, if the arguments of
all of them are accepted. -/
def startAll (maxPorts : UInt8) (starts : List (List Opt)) : Option PortInfo :=
  starts.foldlM (fun ports opts => (parseAppArgs maxPorts ports opts).map Prod.snd) {}

/-- The port info is reached in one of the starts, after some of its options. -/
def Reaches (maxPorts : UInt8) (starts : List (List Opt)) (ports : PortInfo) : Prop :=
  ∃ before opts after k shared, starts = before ++ opts :: after ∧ startAll maxPorts before = some shared ∧
    ((opts.take k).foldlM (parseOpt maxPorts) ({}, shared)).map Prod.snd = some ports

/-- What is expected of the list. -/
structure IsSet (maxPorts : UInt8) (ports : PortInfo) : Prop where
  nodup : ports.list.Nodup
  lt : ∀ id ∈ ports.list, id < maxPorts
  bound : ports.numPorts.toNat ≤ rteMaxEthports

/-- The ports of a mask that are present. -/
def presentPorts (maxPorts : UInt8) (pm : UInt64) : List UInt8 :=
  ((List.range maxPorts.toNat).filter (pm.toNat.testBit ·)).map UInt8.ofNat

/-- The ports that an option asks for. -/
def requested (maxPorts : UInt8) : Opt → List UInt8
  | .p optarg => presentPorts maxPorts (strtoull 16 optarg).1
  | _ => []

/-! ### Additions -/

@[simp] theorem PortInfo.length_list (ports : PortInfo) : ports.list.length = ports.numPorts.toNat := by
  simp [PortInfo.list]

private theorem PortInfo.list_add {ports : PortInfo} (h : ports.numPorts.toNat < 255) (count : UInt8) :
    (ports.add count).list = ports.list ++ [count] := by
  have hnum : (ports.numPorts + 1).toNat = ports.numPorts.toNat + 1 := by
    rw [UInt8.toNat_add]
    exact Nat.mod_eq_of_lt (by simpa using Nat.succ_lt_succ h)
  simp only [PortInfo.list, PortInfo.add, hnum, List.range_succ, List.map_append, List.map_cons, List.map_nil]
  congr 1
  · refine List.map_congr_left fun i hi => Function.update_of_ne (fun heq => ?_) _ _
    have hlt := List.mem_range.1 hi
    rw [← heq, UInt8.toNat_ofNat', Nat.mod_eq_of_lt (by omega)] at hlt
    exact Nat.lt_irrefl _ hlt
  · simp

private theorem PortInfo.list_foldl_add {ports : PortInfo} {counts : List UInt8}
    (h : ports.numPorts.toNat + counts.length ≤ 255) :
    (counts.foldl PortInfo.add ports).list = ports.list ++ counts := by
  induction counts generalizing ports with
  | nil => simp
  | cons count counts ih =>
    rw [List.length_cons] at h
    have hadd := @PortInfo.list_add ports (by omega) count
    have hnum : (ports.add count).numPorts.toNat = ports.numPorts.toNat + 1 := by
      rw [← PortInfo.length_list, hadd, List.length_append, PortInfo.length_list, List.length_singleton]
    rw [List.foldl_cons, ih (by omega), hadd, List.append_assoc, List.singleton_append]

/-- The present ports from `count` on that a mask asks for whose first bit stands for `count`. -/
private def portsFrom (maxPorts count pm : Nat) : List UInt8 :=
  ((List.range' count (maxPorts - count)).filter (fun i => pm.testBit (i - count))).map UInt8.ofNat

private theorem portsFrom_zero (maxPorts count : Nat) : portsFrom maxPorts count 0 = [] := by
  simp [portsFrom]

private theorem portsFrom_of_le {maxPorts count : Nat} (h : maxPorts ≤ count) (pm : Nat) :
    portsFrom maxPorts count pm = [] := by
  simp [portsFrom, Nat.sub_eq_zero_of_le h]

private theorem portsFrom_of_lt {maxPorts count : Nat} (h : count < maxPorts) (pm : Nat) :
    portsFrom maxPorts count pm =
      (if pm % 2 = 1 then [UInt8.ofNat count] else []) ++ portsFrom maxPorts (count + 1) (pm / 2) := by
  obtain ⟨n, hn⟩ : ∃ n, maxPorts - count = n + 1 := ⟨maxPorts - count - 1, by omega⟩
  have hrest : (List.range' (count + 1) n).filter (fun i => pm.testBit (i - count)) =
      (List.range' (count + 1) n).filter (fun i => (pm / 2).testBit (i - (count + 1))) := by
    refine List.filter_congr fun i hi => ?_
    obtain ⟨hle, -⟩ := List.mem_range'_1.1 hi
    rw [show i - count = (i - (count + 1)) + 1 by omega, Nat.testBit_succ]
  rw [portsFrom, portsFrom, hn, show maxPorts - (count + 1) = n by omega, List.range'_succ, List.filter_cons, hrest,
    Nat.sub_self, Nat.testBit_zero]
  by_cases hbit : pm % 2 = 1 <;> simp [hbit]

/-- The loop adds the bits of the mask, which are all gone after as many rounds as it has bits. -/
private theorem markPorts_eq {maxPorts : UInt8} {fuel : Nat} {pm : UInt64} {count : UInt8} (ports : PortInfo)
    (hpm : pm.toNat < 2 ^ fuel) (hcount : count.toNat + fuel ≤ 255) :
    markPorts maxPorts fuel pm count ports =
      (portsFrom maxPorts.toNat count.toNat pm.toNat).foldl PortInfo.add ports := by
  induction fuel generalizing pm count ports with
  | zero =>
    rw [show pm.toNat = 0 by simpa using hpm, portsFrom_zero]
    rfl
  | succ fuel ih =>
    by_cases hzero : pm = 0
    · simp [markPorts, hzero, portsFrom_zero]
    have hshift : (pm >>> 1).toNat = pm.toNat / 2 := by
      rw [UInt64.toNat_shiftRight]
      rfl
    have hnext : (count + 1).toNat = count.toNat + 1 := by
      rw [UInt8.toNat_add]
      exact Nat.mod_eq_of_lt (by simpa using Nat.succ_lt_succ (show count.toNat < 255 by omega))
    have hbit : pm &&& 1 = 1 ↔ pm.toNat % 2 = 1 := by
      rw [← UInt64.toNat_inj, UInt64.toNat_and]
      simp [Nat.and_one_is_mod]
    rw [markPorts, if_neg hzero, ih _ (by rw [hshift]; omega) (by rw [hnext]; omega), hshift, hnext]
    rcases Nat.lt_or_ge count.toNat maxPorts.toNat with hlt | hle
    · have hpresent : ¬maxPorts ≤ count := by rwa [UInt8.le_iff_toNat_le, Nat.not_le]
      rw [portsFrom_of_lt hlt, List.foldl_append]
      by_cases hset : pm.toNat % 2 = 1 <;> simp [hbit, hset, hpresent]
    · have habsent : maxPorts ≤ count := UInt8.le_iff_toNat_le.2 hle
      simp [portsFrom_of_le hle, portsFrom_of_le (Nat.le_succ_of_le hle), habsent]

private theorem markPorts_presentPorts (maxPorts : UInt8) (pm : UInt64) (ports : PortInfo) :
    markPorts maxPorts 64 pm 0 ports = (presentPorts maxPorts pm).foldl PortInfo.add ports := by
  rw [markPorts_eq ports (UInt64.toNat_lt pm) (by decide), presentPorts, List.range_eq_range']
  rfl

/-! ### Sets -/

private theorem lt_of_mem_presentPorts {maxPorts : UInt8} {pm : UInt64} {id : UInt8}
    (h : id ∈ presentPorts maxPorts pm) :
    id < maxPorts := by
  obtain ⟨i, hi, rfl⟩ := List.mem_map.1 h
  have hlt := List.mem_range.1 (List.mem_of_mem_filter hi)
  have hmax := UInt8.toNat_lt maxPorts
  rw [UInt8.lt_iff_toNat_lt, UInt8.toNat_ofNat', Nat.mod_eq_of_lt (by omega)]
  exact hlt

private theorem length_presentPorts_le (maxPorts : UInt8) (pm : UInt64) :
    (presentPorts maxPorts pm).length ≤ maxPorts.toNat := by
  rw [presentPorts, List.length_map]
  simpa using List.length_filter_le (pm.toNat.testBit ·) (List.range maxPorts.toNat)

/-- Ports without repetition are no more than there are. -/
private theorem length_le_of_nodup {maxPorts : UInt8} {ids : List UInt8} (hnodup : ids.Nodup)
    (hlt : ∀ id ∈ ids, id < maxPorts) : ids.length ≤ maxPorts.toNat := by
  have hsub : ids.map UInt8.toNat ⊆ List.range maxPorts.toNat := by
    intro n hn
    obtain ⟨id, hid, rfl⟩ := List.mem_map.1 hn
    exact List.mem_range.2 (UInt8.lt_iff_toNat_lt.1 (hlt id hid))
  have hmap : (ids.map UInt8.toNat).Nodup := hnodup.map fun a b h => UInt8.toNat_inj.1 h
  simpa using (List.subperm_of_subset hmap hsub).length_le

section

variable {maxPorts : UInt8} (hmax : maxPorts.toNat ≤ rteMaxEthports)
include hmax

/-- A mask leaves a set exactly when its ports are new. -/
private theorem isSet_markPorts {ports : PortInfo} (h : IsSet maxPorts ports) (pm : UInt64) :
    (markPorts maxPorts 64 pm 0 ports).list = ports.list ++ presentPorts maxPorts pm ∧
      (IsSet maxPorts (markPorts maxPorts 64 pm 0 ports) ↔ (ports.list ++ presentPorts maxPorts pm).Nodup) := by
  have hlist : (markPorts maxPorts 64 pm 0 ports).list = ports.list ++ presentPorts maxPorts pm := by
    rw [markPorts_presentPorts]
    refine PortInfo.list_foldl_add ?_
    have hlen := length_presentPorts_le maxPorts pm
    have hbound := h.bound
    simp only [rteMaxEthports] at hbound hmax
    omega
  refine ⟨hlist, fun hset => hlist ▸ hset.nodup, fun hnodup => ?_⟩
  have hlt : ∀ id ∈ (markPorts maxPorts 64 pm 0 ports).list, id < maxPorts := by
    intro id hid
    rw [hlist, List.mem_append] at hid
    exact hid.elim (h.lt id) lt_of_mem_presentPorts
  refine ⟨hlist ▸ hnodup, hlt, ?_⟩
  rw [← PortInfo.length_list]
  exact Nat.le_trans (length_le_of_nodup (hlist ▸ hnodup) hlt) hmax

end

/-! ### Runs -/

/-- The port info after an option that is accepted. -/
private def nextPorts (maxPorts : UInt8) (ports : PortInfo) : Opt → PortInfo
  | .p optarg => markPorts maxPorts 64 (strtoull 16 optarg).1 0 ports
  | _ => ports

private theorem parseOpt_ports {maxPorts : UInt8} {st st' : Process × PortInfo} {opt : Opt}
    (h : parseOpt maxPorts st opt = some st') : st'.2 = nextPorts maxPorts st.2 opt := by
  cases opt with
  | p optarg =>
    obtain ⟨ports, hports, rfl⟩ := Option.map_eq_some_iff.1 h
    simp only [parsePortmask] at hports
    split_ifs at hports
    exact (Option.some.inj hports).symm
  | n optarg =>
    obtain ⟨self, -, rfl⟩ := Option.map_eq_some_iff.1 h
    rfl
  | s optarg =>
    obtain ⟨self, -, rfl⟩ := Option.map_eq_some_iff.1 h
    rfl
  | unknown => cases h

private theorem parseOpts_ports {maxPorts : UInt8} {opts : List Opt} {st st' : Process × PortInfo}
    (h : opts.foldlM (parseOpt maxPorts) st = some st') : st'.2 = opts.foldl (nextPorts maxPorts) st.2 := by
  induction opts generalizing st with
  | nil =>
    cases h
    rfl
  | cons opt opts ih =>
    rw [List.foldlM_cons] at h
    obtain ⟨mid, hmid, hrest⟩ := Option.bind_eq_some_iff.1 h
    rw [ih hrest, parseOpt_ports hmid, List.foldl_cons]

theorem parseAppArgs_some {maxPorts : UInt8} {ports : PortInfo} {opts : List Opt} {st : Process × PortInfo}
    (h : parseAppArgs maxPorts ports opts = some st) : opts.foldlM (parseOpt maxPorts) ({}, ports) = some st := by
  obtain ⟨mid, hmid, hrest⟩ := Option.bind_eq_some_iff.1 h
  split_ifs at hrest
  exact hmid.trans hrest

theorem parseAppArgs_numClients {maxPorts : UInt8} {ports : PortInfo} {opts : List Opt} {st : Process × PortInfo}
    (h : parseAppArgs maxPorts ports opts = some st) : st.1.numClients ≠ 0 := by
  obtain ⟨mid, -, hrest⟩ := Option.bind_eq_some_iff.1 h
  split_ifs at hrest with hcheck
  cases hrest
  exact fun h0 => hcheck (Or.inr h0)

private theorem startAll_append {maxPorts : UInt8} {before after : List (List Opt)} :
    startAll maxPorts (before ++ after) = (startAll maxPorts before).bind fun ports =>
      after.foldlM (fun ports opts => (parseAppArgs maxPorts ports opts).map Prod.snd) ports :=
  List.foldlM_append

private theorem startAll_ports {maxPorts : UInt8} {starts : List (List Opt)} {ports : PortInfo}
    (h : startAll maxPorts starts = some ports) : ports = starts.flatten.foldl (nextPorts maxPorts) {} := by
  induction starts using List.reverseRecOn generalizing ports with
  | nil =>
    cases h
    rfl
  | append_singleton starts opts ih =>
    rw [startAll_append] at h
    obtain ⟨shared, hshared, hlast⟩ := Option.bind_eq_some_iff.1 h
    obtain ⟨ports', hargs, hend⟩ := Option.bind_eq_some_iff.1 hlast
    cases hend
    obtain ⟨st, hst, rfl⟩ := Option.map_eq_some_iff.1 hargs
    rw [parseOpts_ports (parseAppArgs_some hst), ih hshared, List.flatten_concat, List.foldl_append]

/-- A part of all options ends inside the options of one start. -/
private theorem take_flatten {starts : List (List Opt)} (hne : starts ≠ []) (k : Nat) :
    ∃ before opts after j, starts = before ++ opts :: after ∧
      starts.flatten.take k = before.flatten ++ opts.take j := by
  induction starts generalizing k with
  | nil => exact absurd rfl hne
  | cons opts starts ih =>
    rcases Nat.lt_or_ge opts.length k with hlt | hle
    · by_cases hnil : starts = []
      · exact ⟨[], opts, [], k, by simp [hnil], by simp [hnil]⟩
      · obtain ⟨before, opts', after, j, rfl, htake⟩ := ih hnil (k - opts.length)
        refine ⟨opts :: before, opts', after, j, rfl, ?_⟩
        rw [List.flatten_cons, List.take_append, List.take_of_length_le (Nat.le_of_lt hlt), htake, List.flatten_cons,
          List.append_assoc]
    · exact ⟨[], opts, starts, k, rfl, by simp [List.take_append_of_le_length hle]⟩

/-- The states that are reached are those after some of all the options. -/
private theorem reaches_iff {maxPorts : UInt8} {starts : List (List Opt)} (hne : starts ≠ [])
    (haccepted : (startAll maxPorts starts).isSome) {ports : PortInfo} :
    Reaches maxPorts starts ports ↔ ∃ k, ports = (starts.flatten.take k).foldl (nextPorts maxPorts) {} := by
  constructor
  · rintro ⟨before, opts, after, k, shared, rfl, hshared, hports⟩
    obtain ⟨st, hst, rfl⟩ := Option.map_eq_some_iff.1 hports
    refine ⟨before.flatten.length + min k opts.length, ?_⟩
    rw [parseOpts_ports hst, startAll_ports hshared, List.flatten_append, List.flatten_cons, List.take_length_add_append,
      List.take_append_of_le_length (Nat.min_le_right _ _), List.foldl_append, ← List.take_eq_take_min]
  · rintro ⟨k, rfl⟩
    obtain ⟨before, opts, after, j, rfl, htake⟩ := take_flatten hne k
    obtain ⟨last, hlast⟩ := Option.isSome_iff_exists.1 haccepted
    rw [startAll_append] at hlast
    obtain ⟨shared, hshared, hrest⟩ := Option.bind_eq_some_iff.1 hlast
    rw [List.foldlM_cons] at hrest
    obtain ⟨next, hstart, -⟩ := Option.bind_eq_some_iff.1 hrest
    obtain ⟨st, hst, -⟩ := Option.map_eq_some_iff.1 hstart
    have hopts := parseAppArgs_some hst
    rw [← List.take_append_drop j opts, List.foldlM_append] at hopts
    obtain ⟨mid, hmid, -⟩ := Option.bind_eq_some_iff.1 hopts
    refine ⟨before, opts, after, j, shared, rfl, hshared, ?_⟩
    rw [hmid, Option.map_some, parseOpts_ports hmid, startAll_ports hshared, htake, List.foldl_append]

section

variable {maxPorts : UInt8} (hmax : maxPorts.toNat ≤ rteMaxEthports)
include hmax

private theorem isSet_nextPorts {ports : PortInfo} (h : IsSet maxPorts ports) (opt : Opt) :
    (nextPorts maxPorts ports opt).list = ports.list ++ requested maxPorts opt ∧
      (IsSet maxPorts (nextPorts maxPorts ports opt) ↔ (ports.list ++ requested maxPorts opt).Nodup) := by
  cases opt with
  | p optarg => exact isSet_markPorts hmax h _
  | n optarg => simpa [nextPorts, requested, h] using h.nodup
  | s optarg => simpa [nextPorts, requested, h] using h.nodup
  | unknown => simpa [nextPorts, requested, h] using h.nodup

private theorem forall_isSet_iff {ports : PortInfo} (h : IsSet maxPorts ports) (opts : List Opt) :
    (∀ k, IsSet maxPorts ((opts.take k).foldl (nextPorts maxPorts) ports)) ↔
      (ports.list ++ opts.flatMap (requested maxPorts)).Nodup := by
  induction opts generalizing ports with
  | nil => simpa [h] using h.nodup
  | cons opt opts ih =>
    obtain ⟨hlist, hset⟩ := isSet_nextPorts hmax h opt
    rw [List.flatMap_cons, ← List.append_assoc, ← hlist]
    constructor
    · intro hall
      exact (ih (hall 1)).1 fun k => hall (k + 1)
    · intro hnodup k
      have hnext := hset.2 (hlist ▸ hnodup.of_append_left)
      cases k with
      | zero => exact h
      | succ k => exact (ih hnext).2 hnodup k

/-- While the programs start with accepted arguments, the shared list is a set of present ports at all times exactly
when no port is asked for twice by the masks of all of them. -/
theorem staysSet_iff {starts : List (List Opt)} (haccepted : (startAll maxPorts starts).isSome) :
    (∀ ports, Reaches maxPorts starts ports → IsSet maxPorts ports) ↔
      (starts.flatten.flatMap (requested maxPorts)).Nodup := by
  have hinit : IsSet maxPorts {} := ⟨List.nodup_nil, nofun, by decide⟩
  by_cases hne : starts = []
  · subst hne
    refine ⟨fun _ => List.nodup_nil, ?_⟩
    rintro - ports ⟨before, opts, after, k, shared, hnil, -⟩
    exact absurd hnil (by simp)
  · rw [← List.nil_append (List.flatMap _ _), show ([] : List UInt8) = PortInfo.list {} from rfl,
      ← forall_isSet_iff hmax hinit]
    simp only [reaches_iff hne haccepted]
    exact ⟨fun h k => h _ ⟨k, rfl⟩, fun h ports ⟨k, hk⟩ => hk ▸ h k⟩

end

theorem staysSet_disjointMasks :
    (startAll 4 [[.p "3".toList, .n "1".toList], [.p "c".toList, .n "1".toList]]).isSome ∧
      ∀ ports, Reaches 4 [[.p "3".toList, .n "1".toList], [.p "c".toList, .n "1".toList]] ports → IsSet 4 ports := by
  have haccepted : (startAll 4 [[.p "3".toList, .n "1".toList], [.p "c".toList, .n "1".toList]]).isSome := by
    decide +kernel
  exact ⟨haccepted, (staysSet_iff (by decide) haccepted).2 (by decide +kernel)⟩

/-- The same option twice, and a secondary with the mask of the primary; with all 32 ports the second start writes
behind the array. -/
theorem ports_repeated :
    (startAll 2 [[.p "3".toList, .p "3".toList, .n "1".toList]]).map PortInfo.list = some [0, 1, 0, 1] ∧
    (startAll 2 [[.p "3".toList, .n "1".toList], [.p "3".toList, .n "1".toList]]).map PortInfo.list =
      some [0, 1, 0, 1] ∧
    (startAll 32 [[.p "ffffffff".toList, .n "1".toList], [.p "ffffffff".toList, .n "1".toList]]).map
      PortInfo.numPorts = some 64 := by
  decide +kernel

end SoftPatchPanel.Lvl1
