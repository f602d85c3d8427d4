import QCap.RegistryArchive
import QCap.JsonReader

/-!
# Documents of `encoding/json`

What `json.Unmarshal` makes of a document at the types of the registry. A field is found
under its name in any letter case, a later member goes on from what an earlier one left, a
`null` leaves a text alone, and fields that do not occur keep their zero value.
-/
namespace QCap.GoJson

open QCap.Text QCap.Formats QCap.Json QCap.JsonReader QCap.RegistryArchive

/-- Unpaired surrogates and bytes that are no UTF-8 are replaced. -/
def goText (raw : List Piece) : String := (joinText true raw).getD ""

/-- Besides the other case, the long s and the Kelvin sign fold to ASCII letters. -/
def foldChar (c : Char) : Char :=
  if c = '\u017F' then 's' else if c = '\u212A' then 'k' else c.toLower

def foldName (name : String) : String := String.ofList (name.toList.map foldChar)

def setField (names fields : List String) (m : List Piece × Node) : Option (List String) :=
  match names.findIdx? fun name => foldName (goText m.1) = name, m.2 with
  | none, _ => some fields
  | some _, .null => some fields
  | some i, .string raw => some (fields.set i (goText raw))
  | some _, _ => none

def decodeTexts (names fields : List String) : Node → Option (List String)
  | .object members => members.foldlM (setField names) fields
  | .null => some fields
  | _ => none

def bundleNames : List String := ["merkle_root", "signature", "public_key", "algorithm"]

def bundleOf : List String → QcapSignatureBundle
  | [merkleRoot, signature, publicKey, algorithm] => ⟨merkleRoot, signature, publicKey, algorithm⟩
  | _ => ⟨"", "", "", ""⟩

def entryNames : List String := ["cap_root", "capability_signature", "revoked_at", "reason"]

def zeroEntry : List String := ["", "", "", ""]

def entryOf : List String → RevocationEntry
  | [capRoot, capabilitySignature, revokedAt, reason] =>
    ⟨capRoot, capabilitySignature, revokedAt, reason⟩
  | _ => ⟨"", "", "", ""⟩

/-- A slice with the array behind it, whose elements beyond the length are still there. -/
structure Slice where
  cells : List (List String)
  length : ℕ

/-- Elements are decoded over the cells of the array, then over new ones. -/
def fillCells : List (List String) → List Node → Option (List (List String))
  | cells, [] => some cells
  | [], item :: items => do
    let cell ← decodeTexts entryNames zeroEntry item
    let cells ← fillCells [] items
    return cell :: cells
  | cell :: cells, item :: items => do
    let cell ← decodeTexts entryNames cell item
    let cells ← fillCells cells items
    return cell :: cells

def decodeSlice (slice : Slice) : Node → Option Slice
  | .null => some ⟨[], 0⟩
  | .array [] => some ⟨[], 0⟩
  | .array items => (fillCells slice.cells items).map fun cells => ⟨cells, items.length⟩
  | _ => none

def listNames : List String := ["schema_version", "signature", "public_key", "algorithm"]

structure GoList where
  texts : List String
  revoked : Slice

def GoList.zero : GoList := ⟨["", "", "", ""], ⟨[], 0⟩⟩

def GoList.entries (g : GoList) : List RevocationEntry :=
  (g.revoked.cells.take g.revoked.length).map entryOf

def GoList.list (g : GoList) : RevocationList :=
  match g.texts with
  | [schemaVersion, signature, publicKey, algorithm] =>
    ⟨schemaVersion, g.entries, signature, publicKey, algorithm⟩
  | _ => ⟨"", g.entries, "", "", ""⟩

def listField (g : GoList) (m : List Piece × Node) : Option GoList :=
  if foldName (goText m.1) = "revoked" then
    (decodeSlice g.revoked m.2).map fun revoked => { g with revoked }
  else (setField listNames g.texts m).map fun texts => { g with texts }

def decodeList : Node → Option RevocationList
  | .object members => (members.foldlM listField GoList.zero).map GoList.list
  | .null => some GoList.zero.list
  | _ => none

def unmarshal {α : Type} (decode : Node → Option α) (document : Bytes) : GoResult α :=
  match readDocument document with
  | none => .error "invalid character"
  | some node =>
    match decode node with
    | none => .error "json: cannot unmarshal"
    | some a => .ok a

/-- `json.RawMessage`, without the white space between tokens. -/
def rawMessage (node : Node) : Bytes :=
  match node.decode true with
  | some value => asBytes (render false 0 value)
  | none => []

def decodeFields : Node → Option (String → Option Bytes)
  | .object members => some fun key =>
    (members.reverse.find? fun m => goText m.1 = key).map fun m => rawMessage m.2
  | .null => some fun _ => none
  | _ => none

def decodeString : Node → Option String
  | .string raw => some (goText raw)
  | .null => some ""
  | _ => none

def decodeBundle (node : Node) : Option QcapSignatureBundle :=
  (decodeTexts bundleNames ["", "", "", ""] node).map bundleOf

/-- `encoding/json` beside a given ZIP reader. -/
def goLibrary (openReader : Bytes → GoResult (List ZipFile)) : GoLib where
  openReader := openReader
  unmarshalFields := unmarshal decodeFields
  unmarshalString := unmarshal decodeString
  unmarshalBundle := unmarshal decodeBundle
  unmarshalRevocations := unmarshal decodeList
  quoted := quote

@[simp] theorem goText_rawString (s : String) : goText (rawString s) = s := by
  simp [goText]

theorem unmarshal_render {α : Type} {decode : Node → Option α} {pretty : Bool} {v : Value}
    {a : α} (hv : Valid v) (h : decode (rawValue v) = some a) :
    unmarshal decode (asBytes (render pretty 0 v)) = .ok a := by
  rw [unmarshal, readDocument_render pretty hv]
  simp [h]

theorem rawMessage_rawValue (v : Value) : rawMessage (rawValue v) = asBytes (render false 0 v) := by
  rw [rawMessage, decode_rawValue]

theorem rawMembers_eq_map (members : List (String × Value)) :
    rawMembers members = members.map fun m => (rawString m.1, rawValue m.2) := by
  induction members with
  | nil => rfl
  | cons m members ih => obtain ⟨name, value⟩ := m; rw [rawMembers, ih]; rfl

theorem decodeFields_object (members : List (String × Value)) :
    decodeFields (rawValue (.object members)) = some fun key =>
      (members.reverse.find? fun m => m.1 = key).map fun m => asBytes (render false 0 m.2) := by
  rw [rawValue, decodeFields, rawMembers_eq_map]
  congr 1
  funext key
  rw [← List.map_reverse, List.find?_map, Option.map_map]
  simp [Function.comp_def, rawMessage_rawValue]

theorem setField_text {names fields : List String} {name s : String} {i : ℕ}
    (h : (names.findIdx? fun n => foldName name = n) = some i) :
    setField names fields (rawString name, rawValue (.string s)) = some (fields.set i s) := by
  simp only [setField, goText_rawString, h, rawValue]

theorem decodeBundle_written (bundle : QcapSignatureBundle) :
    unmarshal decodeBundle (bundleBytes bundle) = .ok bundle := by
  apply unmarshal_render (by simp [Valid, ValidMembers])
  rw [rawValue, decodeBundle, decodeTexts]
  simp only [rawMembers, List.foldlM_cons, List.foldlM_nil,
    setField_text (show bundleNames.findIdx? (fun n => foldName "merkle_root" = n) = some 0
      by decide),
    setField_text (show bundleNames.findIdx? (fun n => foldName "signature" = n) = some 1
      by decide),
    setField_text (show bundleNames.findIdx? (fun n => foldName "public_key" = n) = some 2
      by decide),
    setField_text (show bundleNames.findIdx? (fun n => foldName "algorithm" = n) = some 3
      by decide)]
  rfl

theorem decodeString_written (s : String) :
    unmarshal decodeString (asBytes (render false 0 (.string s))) = .ok s :=
  unmarshal_render (by simp [Valid]) (by simp [rawValue, decodeString])

theorem isDigit_of_toDigits {n : ℕ} : ∀ c ∈ Nat.toDigits 10 n, isDigit c = true := by
  intro c hc
  have hd := Nat.isDigit_of_mem_toDigits (by decide) (by decide) hc
  simpa [isDigit, Char.isDigit, Char.le_def] using hd

theorem toDigits_head {n : ℕ} (hn : 0 < n) : (Nat.toDigits 10 n).head? ≠ some '0' := by
  induction n using Nat.strong_induction_on with
  | _ n ih =>
    by_cases hlt : n < 10
    · rw [Nat.toDigits_of_lt_base hlt]
      interval_cases n <;> decide
    · have hge : 10 ≤ n := by omega
      obtain ⟨c, cs, hcs⟩ := List.exists_cons_of_ne_nil
        (Nat.toDigits_ne_nil (n := n / 10) (b := 10))
      have h := ih (n / 10) (by omega) (by omega)
      rw [Nat.toDigits_of_base_le (by decide) hge]
      rw [hcs] at h ⊢
      simpa using h

theorem isNumber_toString (n : ℕ) : isNumber (toString n).toList = true := by
  rw [Nat.toString_eq_repr, Nat.toList_repr]
  rcases Nat.eq_zero_or_pos n with rfl | hpos
  · decide
  have hall := isDigit_of_toDigits (n := n)
  have hchars : (Nat.toDigits 10 n).all isNumberChar = true := by
    rw [List.all_eq_true]
    intro c hc
    simp [isNumberChar, hall c hc]
  have hhead := toDigits_head hpos
  obtain ⟨c, cs, hcs⟩ := List.exists_cons_of_ne_nil (Nat.toDigits_ne_nil (n := n) (b := 10))
  rw [hcs] at hall hchars hhead ⊢
  have hzero : c ≠ '0' := fun he => hhead (he ▸ rfl)
  have hc := hall c List.mem_cons_self
  have hrest : cs.dropWhile isDigit = [] := by
    rw [List.dropWhile_eq_nil_iff]
    exact fun d hd => hall d (List.mem_cons_of_mem _ hd)
  have hminus : c ≠ '-' := by
    rintro rfl
    exact absurd hc (by decide)
  have hunsigned : isUnsigned (c :: cs) = true := by
    rw [isUnsigned, hc, hrest]
    · rfl
    · exact hzero
  rw [isNumber, hchars, hunsigned]
  · rfl
  · intro ds he
    exact absurd (List.cons.inj he).1 hminus

theorem head_toString (n : ℕ) : (toString n).toList.head? ≠ some '-' := by
  intro he
  have hm := List.mem_of_head? he
  rw [Nat.toString_eq_repr, Nat.toList_repr] at hm
  exact absurd (isDigit_of_toDigits _ hm) (by decide)

theorem toList_negative (n : ℕ) : ("-" ++ toString n).toList = '-' :: (toString n).toList := by
  simp [String.toList_append]

theorem isNumber_negative {cs : List Char} (h : isNumber cs = true) (hc : cs.head? ≠ some '-') :
    isNumber ('-' :: cs) = true := by
  unfold isNumber at h
  obtain ⟨hchars, hunsigned⟩ := Bool.and_eq_true_iff.mp h
  split at hunsigned
  · exact absurd rfl hc
  · rw [isNumber, List.all_cons, hchars, hunsigned]
    rfl

theorem isNumber_int (n : ℤ) : isNumber (toString n).toList = true := by
  rw [Int.toString_eq_repr, Int.repr_eq_if]
  by_cases hn : 0 ≤ n
  · rw [if_pos hn, ← Nat.toString_eq_repr]
    exact isNumber_toString _
  · rw [if_neg hn, ← Nat.toString_eq_repr, toList_negative]
    exact isNumber_negative (isNumber_toString _) (head_toString _)

end QCap.GoJson
