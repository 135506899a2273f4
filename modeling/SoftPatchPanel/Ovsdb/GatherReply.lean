import SoftPatchPanel.Lib.CStr
import Mathlib.Data.List.Infix

/-!
# Reading a reply of the database

`gather_reply` of `ovsdb.py` receives until the text holds the words `error`, `id` and `result` somewhere, and hands it
to `json.loads`.  The reply is read whole exactly when the words are not all there before its last chunk, and after the
connection is closed the loop stops exactly when it has seen all of them (`gatherReply_iff`).
-/

namespace SoftPatchPanel.Ovsdb

open Lib

/-! ### The text of a reply -/

/-- A character inside a JSON string. -/
def escapeChar (c : Char) : CStr :=
  if c = '"' then "\\\"".toList
  else if c = '\\' then "\\\\".toList
  else if c < ' ' then "\\u00".toList ++ [Nat.digitChar (c.toNat / 16), Nat.digitChar (c.toNat % 16)]
  else [c]

/-- A JSON string. -/
def quote (s : CStr) : CStr := '"' :: s.flatMap escapeChar ++ ['"']

/-- How a server serialises an object with members of type `V`: the text of a value, and what it puts between a name and
its value and between two members. -/
structure Serializer (V : Type) where
  value : V → CStr
  colon : CStr
  comma : CStr

/-- The text of a member. -/
def Serializer.member {V : Type} (S : Serializer V) (m : CStr × V) : CStr := quote m.1 ++ S.colon ++ S.value m.2

/-- The text of an object. -/
def Serializer.text {V : Type} (S : Serializer V) (members : List (CStr × V)) : CStr :=
  '\x7b' :: S.comma.intercalate (members.map S.member) ++ ['\x7d']

/-- The object has a member of this name. -/
def HasMember {V : Type} (members : List (CStr × V)) (name : CStr) : Prop := ∃ value, (name, value) ∈ members

/-! ### The loop -/

/-- The loop of `gather_reply` ends: all fields seem to be there. -/
def SeemsWhole (result : CStr) : Prop :=
  "error".toList <:+: result ∧ "id".toList <:+: result ∧ "result".toList <:+: result

instance (result : CStr) : Decidable (SeemsWhole result) := inferInstanceAs (Decidable (_ ∧ _ ∧ _))

/-- The loop after `calls` calls of `recv`, of which call number `k` returns `recv k`; the number of calls and the text
when it ends within `fuel` rounds. -/
def gather (recv : Nat → CStr) : (fuel calls : Nat) → CStr → Option (Nat × CStr)
  | 0, _, _ => none
  | fuel + 1, calls, result =>
    if SeemsWhole result then some (calls, result) else gather recv fuel (calls + 1) (result ++ recv calls)

/-- The loop ends after `calls` calls of `recv` with this text. -/
def Ends (recv : Nat → CStr) (calls : Nat) (result : CStr) : Prop := ∃ fuel, gather recv fuel 0 [] = some (calls, result)

/-- A connection that delivers some chunks and is closed then, after which `recv` returns the empty string. -/
def connection (chunks : List CStr) (call : Nat) : CStr := chunks.getD call []

/-- `gather_reply` returns the object after having received all chunks. -/
def ReadsWhole {V : Type} (loads : CStr → Option (List (CStr × V))) (chunks : List CStr) (members : List (CStr × V)) :
    Prop :=
  ∃ result, Ends (connection chunks) chunks.length result ∧ loads result = some members

/-- `gather_reply` leaves its loop. -/
def Stops (chunks : List CStr) : Prop := ∃ calls result, Ends (connection chunks) calls result

/-! ### When the loop ends -/

private theorem SeemsWhole.append {result : CStr} (h : SeemsWhole result) (rest : CStr) :
    SeemsWhole (result ++ rest) := by
  have hsub : result <:+: result ++ rest := (List.prefix_append result rest).isInfix
  exact ⟨h.1.trans hsub, h.2.1.trans hsub, h.2.2.trans hsub⟩

private theorem flatten_take_succ (chunks : List CStr) (n : Nat) :
    (chunks.take (n + 1)).flatten = (chunks.take n).flatten ++ connection chunks n := by
  rw [List.take_add_one, List.flatten_append, connection, List.getD_eq_getElem?_getD]
  cases chunks[n]? with
  | none => rfl
  | some chunk => simp

/-- The loop ends at the first text that seems whole. -/
private theorem gather_eq_some {chunks : List CStr} {fuel calls n : Nat} {result : CStr} :
    gather (connection chunks) fuel calls (chunks.take calls).flatten = some (n, result) ↔
      calls ≤ n ∧ n < calls + fuel ∧ result = (chunks.take n).flatten ∧ SeemsWhole (chunks.take n).flatten ∧
        ∀ m, calls ≤ m → m < n → ¬SeemsWhole (chunks.take m).flatten := by
  induction fuel generalizing calls with
  | zero =>
    simp only [gather, reduceCtorEq, false_iff]
    omega
  | succ fuel ih =>
    rw [gather]
    split
    · rename_i hwhole
      constructor
      · intro heq
        cases heq
        exact ⟨Nat.le_refl _, by omega, rfl, hwhole, fun m h1 h2 => by omega⟩
      · rintro ⟨hle, -, rfl, -, hbefore⟩
        obtain rfl : calls = n := by
          by_contra hne
          exact hbefore calls (Nat.le_refl _) (by omega) hwhole
        rfl
    · rename_i hnot
      rw [← flatten_take_succ, ih]
      constructor
      · rintro ⟨hle, hlt, hres, hwhole, hbefore⟩
        refine ⟨by omega, by omega, hres, hwhole, ?_⟩
        intro m h1 h2
        by_cases hm : m = calls
        · rw [hm]
          exact hnot
        · exact hbefore m (by omega) h2
      · rintro ⟨hle, hlt, hres, hwhole, hbefore⟩
        have hne : n ≠ calls := by
          rintro rfl
          exact hnot hwhole
        exact ⟨by omega, by omega, hres, hwhole, fun m h1 h2 => hbefore m (by omega) h2⟩

private theorem ends_iff {chunks : List CStr} {n : Nat} {result : CStr} :
    Ends (connection chunks) n result ↔ result = (chunks.take n).flatten ∧ SeemsWhole (chunks.take n).flatten ∧
      ∀ m < n, ¬SeemsWhole (chunks.take m).flatten := by
  constructor
  · rintro ⟨fuel, h⟩
    obtain ⟨-, -, hres, hwhole, hbefore⟩ := (@gather_eq_some chunks fuel 0 n result).1 h
    exact ⟨hres, hwhole, fun m hm => hbefore m (Nat.zero_le m) hm⟩
  · rintro ⟨hres, hwhole, hbefore⟩
    exact ⟨n + 1, (@gather_eq_some chunks (n + 1) 0 n result).2
      ⟨Nat.zero_le n, by omega, hres, hwhole, fun m _ hm => hbefore m hm⟩⟩

/-- On a connection that is closed, the loop stops exactly when all that was received seems whole. -/
private theorem stops_iff (chunks : List CStr) : Stops chunks ↔ SeemsWhole chunks.flatten := by
  constructor
  · rintro ⟨n, result, hends⟩
    obtain ⟨-, hwhole, -⟩ := ends_iff.1 hends
    have hall := hwhole.append (chunks.drop n).flatten
    rwa [← List.flatten_append, List.take_append_drop] at hall
  · intro hwhole
    -- the first number of chunks that seem whole
    have hex : ∃ n, SeemsWhole (chunks.take n).flatten := ⟨chunks.length, by rwa [List.take_length]⟩
    exact ⟨Nat.find hex, _, ends_iff.2 ⟨rfl, Nat.find_spec hex, fun m hm => Nat.find_min hex hm⟩⟩

/-! ### Replies -/

private theorem infix_intercalate {sep field : CStr} {fields : List CStr} (h : field ∈ fields) :
    field <:+: sep.intercalate fields := by
  induction fields with
  | nil => cases h
  | cons first rest ih =>
    cases rest with
    | nil =>
      rw [List.mem_singleton.1 h, List.intercalate_singleton]
    | cons second rest =>
      rw [List.intercalate_cons_cons]
      rcases List.mem_cons.1 h with rfl | h
      · exact ((List.prefix_append _ _).trans (List.prefix_append _ _)).isInfix
      · exact (ih h).trans (List.suffix_append _ _).isInfix

/-- The name of a member is in the text of the object. -/
private theorem infix_text {V : Type} {S : Serializer V} {members : List (CStr × V)} {name : CStr}
    (h : HasMember members name) : name.flatMap escapeChar <:+: S.text members := by
  obtain ⟨value, hmem⟩ := h
  have hname : name.flatMap escapeChar <:+: S.member (name, value) := by
    refine ⟨['"'], '"' :: (S.colon ++ S.value value), ?_⟩
    simp [Serializer.member, quote]
  have hmember : S.member (name, value) <:+: S.comma.intercalate (members.map S.member) :=
    infix_intercalate (List.mem_map_of_mem hmem)
  refine hname.trans (hmember.trans ⟨['\x7b'], ['\x7d'], ?_⟩)
  simp [Serializer.text]

private theorem seemsWhole_text {V : Type} {S : Serializer V} {members : List (CStr × V)}
    (hid : HasMember members "id".toList) (herror : HasMember members "error".toList)
    (hresult : HasMember members "result".toList) : SeemsWhole (S.text members) := by
  refine ⟨?_, ?_, ?_⟩
  · exact (show "error".toList.flatMap escapeChar = "error".toList by decide) ▸ infix_text herror
  · exact (show "id".toList.flatMap escapeChar = "id".toList by decide) ▸ infix_text hid
  · exact (show "result".toList.flatMap escapeChar = "result".toList by decide) ▸ infix_text hresult

/-- A reply is an object with the members `id`, `error` and `result`, which `json.loads` reads back from its text.  When
its text arrives in chunks, `gather_reply` returns the object after all of them exactly when the first chunks never
seem whole.  When the connection is closed before the text is complete, it stops exactly when what has arrived seems
whole. -/
theorem gatherReply_iff {V : Type} (S : Serializer V) {loads : CStr → Option (List (CStr × V))}
    {members : List (CStr × V)} (hid : HasMember members "id".toList) (herror : HasMember members "error".toList)
    (hresult : HasMember members "result".toList) (hloads : loads (S.text members) = some members) :
    (∀ chunks : List CStr, chunks.flatten = S.text members →
      (ReadsWhole loads chunks members ↔ ∀ n < chunks.length, ¬SeemsWhole (chunks.take n).flatten)) ∧
    ∀ chunks : List CStr, ∀ rest ≠ [], chunks.flatten ++ rest = S.text members →
      (Stops chunks ↔ SeemsWhole chunks.flatten) := by
  refine ⟨?_, fun chunks _ _ _ => stops_iff chunks⟩
  intro chunks htext
  have hall : (chunks.take chunks.length).flatten = S.text members := by rw [List.take_length, htext]
  constructor
  · rintro ⟨result, hends, -⟩
    exact (ends_iff.1 hends).2.2
  · intro hbefore
    refine ⟨S.text members, ends_iff.2 ⟨hall.symm, ?_, hbefore⟩, hloads⟩
    rw [hall]
    exact seemsWhole_text hid herror hresult

/-- The serialisation of the server, for members whose values are given by their texts. -/
def plainTexts : Serializer CStr := ⟨id, ":".toList, ",".toList⟩

/-- A reply whose members come in the order `id`, `result`, `error`. -/
def listDbs : List (CStr × CStr) :=
  [("id".toList, "0".toList), ("result".toList, "[\"Open_vSwitch\"]".toList), ("error".toList, "null".toList)]

theorem gatherReply_oneChunk :
    ReadsWhole (fun text => if text = plainTexts.text listDbs then some listDbs else none) [plainTexts.text listDbs]
      listDbs := by
  refine ((@gatherReply_iff CStr plainTexts (fun text => if text = plainTexts.text listDbs then some listDbs else none)
    listDbs ?_ ?_ ?_ ?_).1 _ ?_).2 ?_
  · exact ⟨"0".toList, by decide⟩
  · exact ⟨"null".toList, by decide⟩
  · exact ⟨"[\"Open_vSwitch\"]".toList, by decide⟩
  · exact if_pos rfl
  · rw [List.flatten_singleton]
  · decide +kernel

/-- The reply is taken for whole without its end when a chunk ends behind the name `error`; a connection that is closed
after the `id` leaves the loop running forever. -/
theorem reply_cut_short :
    (∃ chunks : List CStr, chunks.flatten = plainTexts.text listDbs ∧
      ∀ loads : CStr → Option (List (CStr × CStr)), ¬ReadsWhole loads chunks listDbs) ∧
    ∃ chunks : List CStr, ∃ rest ≠ [], chunks.flatten ++ rest = plainTexts.text listDbs ∧ ¬Stops chunks := by
  constructor
  · refine ⟨["\x7b\"id\":0,\"result\":[\"Open_vSwitch\"],\"error\"".toList, ":null\x7d".toList], by decide +kernel, ?_⟩
    rintro loads ⟨result, hends, -⟩
    exact (ends_iff.1 hends).2.2 1 (by decide) (by decide +kernel)
  · refine ⟨["\x7b\"id\":0,".toList], "\"result\":[\"Open_vSwitch\"],\"error\":null\x7d".toList, by decide,
      by decide +kernel, ?_⟩
    rw [stops_iff]
    decide +kernel

end SoftPatchPanel.Ovsdb
