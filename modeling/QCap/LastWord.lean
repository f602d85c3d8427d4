import QCap.GoJson

/-!
# The last word in a Go document

What a structure of texts and the slice of a revocation list hold once all members of an
object are decoded: at each field the last text given under its name in any letter case,
and for an entry of the slice the one given by any array at its position.
-/
namespace QCap.LastWord

open QCap.Text QCap.Formats QCap.JsonReader QCap.GoJson

abbrev Member := List Piece × Node

def givenText (name : String) (m : Member) : Option String :=
  if foldName (goText m.1) = name then
    match m.2 with
    | .string raw => some (goText raw)
    | _ => none
  else none

def lastText (name : String) (members : List Member) : String :=
  (members.filterMap (givenText name)).getLast?.getD ""

theorem findIdx_name {names : List String} {name : String} {i : ℕ}
    (h : (names.findIdx? fun n => name = n) = some i) : name ∈ names ∧ names.idxOf name = i := by
  obtain ⟨hi, he⟩ := List.findIdx?_eq_some_iff_findIdx_eq.mp h
  have hidx : names.idxOf name = i := by
    rw [← he, List.idxOf]
    congr 1
    funext n
    rw [beq_eq_decide, decide_eq_decide, eq_comm]
  exact ⟨List.idxOf_lt_length_iff.mp (hidx ▸ hi), hidx⟩

theorem setField_given {names fields fields' : List String} {m : Member}
    (h : setField names fields m = some fields') (hl : fields.length = names.length) :
    fields'.length = names.length ∧ ∀ name ∈ names, fields'.getD (names.idxOf name) "" =
      (givenText name m).getD (fields.getD (names.idxOf name) "") := by
  unfold setField at h
  split at h
  · rename_i hnone
    cases h
    refine ⟨hl, fun name hname => ?_⟩
    have hne : foldName (goText m.1) ≠ name := by
      rintro rfl
      simpa using List.findIdx?_eq_none_iff.mp hnone _ hname
    rw [givenText, if_neg hne]
    rfl
  · rename_i hnull
    cases h
    refine ⟨hl, fun name _ => ?_⟩
    simp [givenText, hnull]
  · rename_i i raw hi hstring
    cases h
    obtain ⟨hmem, hidx⟩ := findIdx_name hi
    refine ⟨by rw [List.length_set, hl], fun name hname => ?_⟩
    simp only [givenText, hstring]
    by_cases he : foldName (goText m.1) = name
    · have hlt : i < fields.length := by rw [hl, ← hidx]; exact List.idxOf_lt_length_iff.mpr hmem
      rw [if_pos he, ← he, hidx]
      simp [List.getD_eq_getElem?_getD, hlt]
    · have hne : i ≠ names.idxOf name := by
        rw [← hidx]
        exact fun h => he ((List.idxOf_inj hmem).mp h)
      rw [if_neg he]
      simp [List.getD_eq_getElem?_getD, List.getElem?_set_ne hne]
  · cases h

theorem foldlM_setField {names fields fields' : List String} {members : List Member}
    (h : members.foldlM (setField names) fields = some fields')
    (hl : fields.length = names.length) :
    fields'.length = names.length ∧ ∀ name ∈ names, fields'.getD (names.idxOf name) "" =
      (members.filterMap (givenText name)).getLast?.getD (fields.getD (names.idxOf name) "") := by
  induction members generalizing fields with
  | nil =>
    cases h
    exact ⟨hl, fun _ _ => rfl⟩
  | cons m members ih =>
    rw [List.foldlM_cons] at h
    obtain ⟨next, hm, h⟩ := Option.bind_eq_some_iff.mp h
    obtain ⟨hl', hgiven⟩ := setField_given hm hl
    obtain ⟨hlen, hlast⟩ := ih h hl'
    refine ⟨hlen, fun name hname => ?_⟩
    rw [hlast name hname, hgiven name hname, List.filterMap_cons]
    cases givenText name m with
    | none => rfl
    | some s => simp [List.getLast?_cons]

theorem texts_eq_lastText {names texts : List String} {members : List Member}
    (hn : names.Nodup)
    (h : members.foldlM (setField names) (List.replicate names.length "") = some texts) :
    texts = names.map fun name => lastText name members := by
  obtain ⟨hlen, hlast⟩ := foldlM_setField h (by simp)
  apply List.ext_getElem (by simp [hlen])
  intro i hi hi'
  have hin : i < names.length := by simpa using hi'
  have h := hlast _ (List.getElem_mem hin)
  rw [hn.idxOf_getElem, ← List.getElem_eq_getD (h := hi)] at h
  rw [List.getElem_map, h, lastText]
  simp [hin]

def itemsOf : Node → List Node
  | .array items => items
  | _ => []

def membersOf : Node → List Member
  | .object members => members
  | _ => []

/-- The members that an array has for the entry at position `i`. -/
def row (i : ℕ) (items : List Node) : List Member := (items[i]?.map membersOf).getD []

def filled (value : Node) : Bool := !(itemsOf value).isEmpty

/-- The members for the entry at position `i` in all arrays after the last value that has no
entries: it drops the array behind the slice. -/
def column (values : List Node) (i : ℕ) : List Member :=
  (values.rtakeWhile filled).flatMap fun value => row i (itemsOf value)

def lastLength (values : List Node) : ℕ :=
  (values.getLast?.map fun value => (itemsOf value).length).getD 0

def Decodable (item : Node) : Prop := item = .null ∨ ∃ members, item = .object members

theorem decodeTexts_members {names fields fields' : List String} {node : Node}
    (h : decodeTexts names fields node = some fields') :
    (membersOf node).foldlM (setField names) fields = some fields' ∧ Decodable node := by
  cases node with
  | object members => exact ⟨h, .inr ⟨members, rfl⟩⟩
  | null => exact ⟨h, .inl rfl⟩
  | _ => cases h

theorem fillCells_rows {cells cells' : List (List String)} {items : List Node}
    (h : fillCells cells items = some cells') :
    items.length ≤ cells'.length ∧ (∀ item ∈ items, Decodable item) ∧
      ∀ i, (row i items).foldlM (setField entryNames) (cells.getD i zeroEntry) =
        some (cells'.getD i zeroEntry) := by
  induction items generalizing cells cells' with
  | nil =>
    have he : cells' = cells := by cases cells <;> exact (Option.some.inj h).symm
    exact ⟨Nat.zero_le _, by simp, fun i => by rw [he]; rfl⟩
  | cons item items ih =>
    obtain ⟨cell, rest, hcell, hrest, rfl⟩ : ∃ cell rest,
        decodeTexts entryNames (cells.getD 0 zeroEntry) item = some cell ∧
        fillCells cells.tail items = some rest ∧ cells' = cell :: rest := by
      cases cells with
      | nil | cons =>
        simp only [fillCells, bind, Option.bind_eq_some_iff] at h
        obtain ⟨cell, hcell, rest, hrest, he⟩ := h
        exact ⟨cell, rest, hcell, hrest, (Option.some.inj he).symm⟩
    obtain ⟨hfirst, hitem⟩ := decodeTexts_members hcell
    obtain ⟨hlen, hitems, hrows⟩ := ih hrest
    refine ⟨Nat.succ_le_succ hlen, by simpa using ⟨hitem, hitems⟩, fun i => ?_⟩
    cases i with
    | zero => exact hfirst
    | succ i =>
      have htail : cells.tail.getD i zeroEntry = cells.getD (i + 1) zeroEntry := by
        cases cells <;> rfl
      exact htail ▸ hrows i

theorem decodeSlice_filled {slice slice' : Slice} {value : Node} (hv : filled value = true)
    (h : decodeSlice slice value = some slice') :
    slice'.length = (itemsOf value).length ∧
      fillCells slice.cells (itemsOf value) = some slice'.cells := by
  unfold decodeSlice at h
  split at h
  · cases hv
  · cases hv
  · obtain ⟨cells, hcells, rfl⟩ := Option.map_eq_some_iff.mp h
    exact ⟨rfl, hcells⟩
  · cases h

theorem decodeSlice_empty {slice slice' : Slice} {value : Node} (hv : filled value = false)
    (h : decodeSlice slice value = some slice') : slice' = ⟨[], 0⟩ ∧ itemsOf value = [] := by
  have hitems : itemsOf value = [] := by simpa [filled] using hv
  unfold decodeSlice at h
  split at h
  · exact ⟨(Option.some.inj h).symm, hitems⟩
  · exact ⟨(Option.some.inj h).symm, hitems⟩
  · rename_i hne
    exact absurd hitems hne
  · cases h

theorem foldlM_decodeSlice {values : List Node} {slice : Slice}
    (h : values.foldlM decodeSlice ⟨[], 0⟩ = some slice) :
    slice.length = lastLength values ∧ slice.length ≤ slice.cells.length ∧
      (∀ value ∈ values, ∀ item ∈ itemsOf value, Decodable item) ∧
      ∀ i, (column values i).foldlM (setField entryNames) zeroEntry =
        some (slice.cells.getD i zeroEntry) := by
  induction values using List.reverseRecOn generalizing slice with
  | nil =>
    cases h
    exact ⟨rfl, le_rfl, by simp, fun i => by simp [column]⟩
  | append_singleton values value ih =>
    rw [List.foldlM_append] at h
    obtain ⟨before, hbefore, h⟩ := Option.bind_eq_some_iff.mp h
    have hstep : decodeSlice before value = some slice := by simpa using h
    obtain ⟨-, -, hdec, hcols⟩ := ih hbefore
    have hlast : lastLength (values ++ [value]) = (itemsOf value).length := by simp [lastLength]
    cases hv : filled value with
    | true =>
      obtain ⟨hlen, hfill⟩ := decodeSlice_filled hv hstep
      obtain ⟨hle, hitems, hrows⟩ := fillCells_rows hfill
      refine ⟨hlen.trans hlast.symm, hlen ▸ hle, ?_, fun i => ?_⟩
      · intro v hmem
        rcases List.mem_append.mp hmem with hmem | hmem
        · exact hdec v hmem
        · exact List.mem_singleton.mp hmem ▸ hitems
      · rw [column, List.rtakeWhile_concat_pos _ _ _ hv, List.flatMap_append, List.foldlM_append,
          ← column, hcols i]
        simpa using hrows i
    | false =>
      obtain ⟨rfl, hitems⟩ := decodeSlice_empty hv hstep
      refine ⟨by rw [hlast, hitems]; rfl, le_rfl, ?_, fun i => ?_⟩
      · intro v hmem
        rcases List.mem_append.mp hmem with hmem | hmem
        · exact hdec v hmem
        · rw [List.mem_singleton.mp hmem, hitems]
          simp
      · rw [column, List.rtakeWhile_concat_neg _ _ _ (by simp [hv])]
        rfl

def revokedValue (m : Member) : Option Node :=
  if foldName (goText m.1) = "revoked" then some m.2 else none

def revokedValues (members : List Member) : List Node := members.filterMap revokedValue

def lastEntry (values : List Node) (i : ℕ) : RevocationEntry :=
  entryOf (entryNames.map fun name => lastText name (column values i))

def lastEntries (values : List Node) : List RevocationEntry :=
  (List.range (lastLength values)).map (lastEntry values)

def lastList (members : List Member) : RevocationList :=
  ⟨lastText "schema_version" members, lastEntries (revokedValues members),
    lastText "signature" members, lastText "public_key" members, lastText "algorithm" members⟩

theorem listField_parts {g g' : GoList} {m : Member} (h : listField g m = some g') :
    setField listNames g.texts m = some g'.texts ∧
      match revokedValue m with
      | some value => decodeSlice g.revoked value = some g'.revoked
      | none => g'.revoked = g.revoked := by
  unfold listField at h
  split at h
  · rename_i hname
    obtain ⟨revoked, hrevoked, rfl⟩ := Option.map_eq_some_iff.mp h
    have hidx : (listNames.findIdx? fun name => "revoked" = name) = none := by decide
    refine ⟨by simp [setField, hname, hidx], ?_⟩
    rw [revokedValue, if_pos hname]
    exact hrevoked
  · rename_i hname
    obtain ⟨texts, htexts, rfl⟩ := Option.map_eq_some_iff.mp h
    refine ⟨htexts, ?_⟩
    rw [revokedValue, if_neg hname]

theorem foldlM_listField {g g' : GoList} {members : List Member}
    (h : members.foldlM listField g = some g') :
    members.foldlM (setField listNames) g.texts = some g'.texts ∧
      (revokedValues members).foldlM decodeSlice g.revoked = some g'.revoked := by
  induction members generalizing g with
  | nil =>
    cases h
    exact ⟨rfl, rfl⟩
  | cons m members ih =>
    rw [List.foldlM_cons] at h
    obtain ⟨next, hm, h⟩ := Option.bind_eq_some_iff.mp h
    obtain ⟨htext, hrevoked⟩ := listField_parts hm
    obtain ⟨htexts, hvalues⟩ := ih h
    refine ⟨by rw [List.foldlM_cons, htext]; exact htexts, ?_⟩
    rw [revokedValues, List.filterMap_cons]
    cases hv : revokedValue m with
    | none =>
      rw [hv] at hrevoked
      exact hrevoked ▸ hvalues
    | some value =>
      rw [hv] at hrevoked
      rw [List.foldlM_cons, show decodeSlice g.revoked value = _ from hrevoked]
      exact hvalues

theorem take_eq_range {α : Type} {xs : List α} {n : ℕ} (h : n ≤ xs.length) (d : α) :
    xs.take n = (List.range n).map fun i => xs.getD i d := by
  apply List.ext_getElem (by simpa using h)
  intro i hi hi'
  have hlt : i < xs.length := by simp at hi; omega
  simp [hlt]

theorem decodeList_object {members : List Member} {list : RevocationList}
    (h : decodeList (.object members) = some list) : list = lastList members ∧
      ∀ value ∈ revokedValues members, ∀ item ∈ itemsOf value, Decodable item := by
  obtain ⟨g, hg, rfl⟩ := Option.map_eq_some_iff.mp h
  obtain ⟨htexts, hslice⟩ := foldlM_listField hg
  obtain ⟨hlen, hle, hdec, hcols⟩ := foldlM_decodeSlice hslice
  refine ⟨?_, hdec⟩
  have hentries : g.entries = lastEntries (revokedValues members) := by
    rw [GoList.entries, take_eq_range hle zeroEntry, List.map_map, lastEntries, hlen]
    refine List.map_congr_left fun i _ => congrArg entryOf ?_
    exact texts_eq_lastText (by decide) (hcols i)
  rw [GoList.list, texts_eq_lastText (by decide) htexts, hentries]
  rfl

end QCap.LastWord
