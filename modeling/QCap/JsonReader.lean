import QCap.Json
import Mathlib.Data.List.DropRight

/-!
# Reading JSON

A reader for the JSON grammar over the bytes of a document, and that it returns every value
that was written. Strings are kept as they stand, with their `\u` units and with bytes that
are no UTF-8, so that two decoders can differ in what they make of a string and share the
rest.
-/
namespace QCap.JsonReader

open QCap.Text QCap.Formats QCap.Json

abbrev Rune := Option Char

def runeAt (bytes : Bytes) : Rune := ByteArray.utf8DecodeChar? ⟨bytes.toArray⟩ 0

/-- Runes after `skip` more bytes of the current one. -/
def decodeFrom : ℕ → Bytes → List Rune
  | _, [] => []
  | skip + 1, _ :: bytes => decodeFrom skip bytes
  | 0, b :: bytes =>
    match runeAt (b :: bytes) with
    | some c => some c :: decodeFrom (c.utf8Size - 1) bytes
    | none => none :: decodeFrom 0 bytes

def decodeRunes (document : Bytes) : List Rune := decodeFrom 0 document

def runes (cs : List Char) : List Rune := cs.map some

def isSpace (c : Char) : Bool := c = ' ' || c = '\t' || c = '\n' || c = '\r'

def skipSpace (cs : List Rune) : List Rune := cs.dropWhile fun r => r.any isSpace

inductive Piece where
  | char (c : Char)
  | unit (u : ℕ)
  | bad

def hexUnit (a b c d : Char) : Option ℕ := do
  let a ← hexValue a
  let b ← hexValue b
  let c ← hexValue c
  let d ← hexValue d
  return ((16 * a + b) * 16 + c) * 16 + d

/-- The character that a backslash and `c` stand for. -/
def escaped (c : Char) : Option Char :=
  if c = '"' ∨ c = '\\' ∨ c = '/' then some c
  else if c = 'b' then some '\x08'
  else if c = 'f' then some '\x0c'
  else if c = 'n' then some '\n'
  else if c = 'r' then some '\r'
  else if c = 't' then some '\t'
  else none

def addPiece (p : Piece) (read : Option (List Piece × List Rune)) :
    Option (List Piece × List Rune) := read.map fun (ps, rest) => (p :: ps, rest)

def readPieces : List Rune → Option (List Piece × List Rune)
  | [] => none
  | some '"' :: rs => some ([], rs)
  | some '\\' :: some 'u' :: some a :: some b :: some c :: some d :: rs =>
    (hexUnit a b c d).bind fun u => addPiece (.unit u) (readPieces rs)
  | some '\\' :: some c :: rs => (escaped c).bind fun e => addPiece (.char e) (readPieces rs)
  | some '\\' :: _ => none
  | some c :: rs => if c.toNat < 32 then none else addPiece (.char c) (readPieces rs)
  | none :: rs => addPiece .bad (readPieces rs)

def isHigh (u : ℕ) : Bool := 0xD800 ≤ u && u < 0xDC00
def isLow (u : ℕ) : Bool := 0xDC00 ≤ u && u < 0xE000

def replacement (lenient : Bool) : Option Char := if lenient then some '\uFFFD' else none

def loneUnit (lenient : Bool) (u : ℕ) : Option Char :=
  if isHigh u || isLow u then replacement lenient else some (Char.ofNat u)

def consChar (c : Option Char) (cs : Option (List Char)) : Option (List Char) :=
  c.bind fun c => cs.map (c :: ·)

def joinPieces (lenient : Bool) : List Piece → Option (List Char)
  | [] => some []
  | .char c :: ps => consChar (some c) (joinPieces lenient ps)
  | .bad :: ps => consChar (replacement lenient) (joinPieces lenient ps)
  | .unit u :: .unit v :: ps =>
    if isHigh u && isLow v then
      consChar (some (Char.ofNat (0x10000 + (u - 0xD800) * 1024 + (v - 0xDC00))))
        (joinPieces lenient ps)
    else consChar (loneUnit lenient u) (joinPieces lenient (.unit v :: ps))
  | .unit u :: ps => consChar (loneUnit lenient u) (joinPieces lenient ps)

def joinText (lenient : Bool) (ps : List Piece) : Option String :=
  (joinPieces lenient ps).map String.ofList

def isDigit (c : Char) : Bool := '0' ≤ c && c ≤ '9'

def isExponent : List Char → Bool
  | [] => true
  | e :: cs =>
    let digits := match cs with
      | '+' :: cs => cs
      | '-' :: cs => cs
      | cs => cs
    (e = 'e' || e = 'E') && !digits.isEmpty && digits.all isDigit

def isFraction : List Char → Bool
  | '.' :: c :: cs => isDigit c && isExponent (cs.dropWhile isDigit)
  | cs => isExponent cs

def isUnsigned : List Char → Bool
  | '0' :: cs => isFraction cs
  | c :: cs => isDigit c && isFraction (cs.dropWhile isDigit)
  | [] => false

def isNumberChar (c : Char) : Bool :=
  isDigit c || c = '-' || c = '+' || c = '.' || c = 'e' || c = 'E'

def isNumber (cs : List Char) : Bool :=
  cs.all isNumberChar && match cs with
    | '-' :: cs => isUnsigned cs
    | cs => isUnsigned cs

inductive Node where
  | null
  | bool (b : Bool)
  | number (literal : String)
  | string (raw : List Piece)
  | array (items : List Node)
  | object (members : List (List Piece × Node))

def readNumber (rs : List Rune) : Option (Node × List Rune) :=
  let literal := (rs.takeWhile fun r => r.any isNumberChar).filterMap id
  if isNumber literal then
    some (.number (String.ofList literal), rs.dropWhile fun r => r.any isNumberChar)
  else none

def readWord : List Rune → Option (Node × List Rune)
  | some 'n' :: some 'u' :: some 'l' :: some 'l' :: rs => some (.null, rs)
  | some 't' :: some 'r' :: some 'u' :: some 'e' :: rs => some (.bool true, rs)
  | some 'f' :: some 'a' :: some 'l' :: some 's' :: some 'e' :: rs => some (.bool false, rs)
  | _ => none

mutual

def readValue : ℕ → List Rune → Option (Node × List Rune)
  | 0, _ => none
  | n + 1, rs =>
    match skipSpace rs with
    | some c :: rs =>
      if c = '"' then (readPieces rs).map fun (ps, rs) => (.string ps, rs)
      else if c = '[' then
        match skipSpace rs with
        | some ']' :: rs => some (.array [], rs)
        | rs => do
          let (item, rs) ← readValue n rs
          let (items, rs) ← readItems n rs
          return (.array (item :: items), rs)
      else if c = '\x7b' then
        match skipSpace rs with
        | some '\x7d' :: rs => some (.object [], rs)
        | rs => do
          let (member, rs) ← readMember n rs
          let (members, rs) ← readMembers n rs
          return (.object (member :: members), rs)
      else if isNumberChar c then readNumber (some c :: rs)
      else readWord (some c :: rs)
    | _ => none

def readItems : ℕ → List Rune → Option (List Node × List Rune)
  | 0, _ => none
  | n + 1, rs =>
    match skipSpace rs with
    | some ']' :: rs => some ([], rs)
    | some ',' :: rs => do
      let (item, rs) ← readValue n rs
      let (items, rs) ← readItems n rs
      return (item :: items, rs)
    | _ => none

def readMember : ℕ → List Rune → Option ((List Piece × Node) × List Rune)
  | 0, _ => none
  | n + 1, rs =>
    match skipSpace rs with
    | some '"' :: rs => do
      let (name, rs) ← readPieces rs
      match skipSpace rs with
      | some ':' :: rs => do
        let (value, rs) ← readValue n rs
        return ((name, value), rs)
      | _ => none
    | _ => none

def readMembers : ℕ → List Rune → Option (List (List Piece × Node) × List Rune)
  | 0, _ => none
  | n + 1, rs =>
    match skipSpace rs with
    | some '\x7d' :: rs => some ([], rs)
    | some ',' :: rs => do
      let (member, rs) ← readMember n rs
      let (members, rs) ← readMembers n rs
      return (member :: members, rs)
    | _ => none

end

/-- A whole document: each call has taken a character before the next one, so the length is
enough. -/
def readDocument (document : Bytes) : Option Node := do
  let rs := decodeRunes document
  let (value, rs) ← readValue (rs.length + 1) rs
  if skipSpace rs = [] then some value else none

mutual

def Node.decode (lenient : Bool) : Node → Option Value
  | .null => some .null
  | .bool b => some (.bool b)
  | .number literal => some (.number literal)
  | .string raw => (joinText lenient raw).map .string
  | .array items => (decodeItems lenient items).map .array
  | .object members => (decodeMembers lenient members).map .object

def decodeItems (lenient : Bool) : List Node → Option (List Value)
  | [] => some []
  | item :: items => do
    let value ← item.decode lenient
    let values ← decodeItems lenient items
    return value :: values

def decodeMembers (lenient : Bool) : List (List Piece × Node) → Option (List (String × Value))
  | [] => some []
  | (name, node) :: members => do
    let name ← joinText lenient name
    let value ← node.decode lenient
    let values ← decodeMembers lenient members
    return (name, value) :: values

end

theorem decodeFrom_skip (xs bytes : Bytes) : decodeFrom xs.length (xs ++ bytes) =
    decodeFrom 0 bytes := by
  induction xs with
  | nil => rfl
  | cons x xs ih => simpa [decodeFrom] using ih

theorem decodeFrom_char (c : Char) (bytes : Bytes) :
    decodeFrom 0 (String.utf8EncodeChar c ++ bytes) = some c :: decodeFrom 0 bytes := by
  have hrune : runeAt (String.utf8EncodeChar c ++ bytes) = some c := by
    have h := ByteArray.utf8DecodeChar?_utf8EncodeChar_append (b := ⟨bytes.toArray⟩) (c := c)
    have he : (String.utf8EncodeChar c).toByteArray ++ (⟨bytes.toArray⟩ : ByteArray) =
        ⟨(String.utf8EncodeChar c ++ bytes).toArray⟩ := by
      apply ByteArray.ext
      simp
    rw [he] at h
    exact h
  have hlen := String.length_utf8EncodeChar c
  cases henc : String.utf8EncodeChar c with
  | nil =>
    have hpos := c.utf8Size_pos
    rw [henc] at hlen
    simp at hlen
    omega
  | cons b xs =>
    rw [henc] at hrune hlen
    rw [List.cons_append] at hrune ⊢
    have hxs : c.utf8Size - 1 = xs.length := by
      rw [List.length_cons] at hlen
      omega
    rw [decodeFrom, hrune]
    simp only [hxs, decodeFrom_skip]

theorem decodeRunes_asBytes (s : String) : decodeRunes (asBytes s) = runes s.toList := by
  rw [decodeRunes, asBytes_eq_flatMap]
  induction s.toList with
  | nil => rfl
  | cons c cs ih => rw [List.flatMap_cons, decodeFrom_char, ih]; rfl

def pieceOf (c : Char) : Piece :=
  if c.toNat < 32 ∧ c ∉ ['\x08', '\x0c', '\n', '\r', '\t'] then .unit c.toNat else .char c

def rawString (s : String) : List Piece := s.toList.map pieceOf

theorem joinPieces_unit {lenient : Bool} {u : ℕ} (h : u < 0xD800) (ps : List Piece) :
    joinPieces lenient (.unit u :: ps) =
      consChar (some (Char.ofNat u)) (joinPieces lenient ps) := by
  have hh : isHigh u = false := by simp [isHigh]; omega
  have hl : isLow u = false := by simp [isLow]; omega
  have hlone : loneUnit lenient u = some (Char.ofNat u) := by simp [loneUnit, hh, hl]
  rw [← hlone]
  cases ps with
  | nil => rfl
  | cons p ps =>
    cases p with
    | char c => rfl
    | bad => rfl
    | unit v => rw [joinPieces, if_neg (by simp [hh])]

theorem joinPieces_pieceOf (lenient : Bool) (c : Char) (ps : List Piece) :
    joinPieces lenient (pieceOf c :: ps) = consChar (some c) (joinPieces lenient ps) := by
  unfold pieceOf
  split
  · rename_i h
    rw [joinPieces_unit (by omega), Char.ofNat_toNat]
  · rfl

@[simp] theorem joinText_rawString (lenient : Bool) (s : String) :
    joinText lenient (rawString s) = some s := by
  have h : ∀ cs : List Char, joinPieces lenient (cs.map pieceOf) = some cs := by
    intro cs
    induction cs with
    | nil => rfl
    | cons c cs ih => rw [List.map_cons, joinPieces_pieceOf, ih]; rfl
  rw [joinText, rawString, h, Option.map_some, String.ofList_toList]

theorem loneUnit_lenient {u : ℕ} {c : Char} (h : loneUnit false u = some c) :
    loneUnit true u = some c := by
  unfold loneUnit at h ⊢
  split at h
  · cases h
  · rename_i hu
    rw [if_neg hu]
    exact h

theorem consChar_some {c : Option Char} {cs : Option (List Char)} {text : List Char} :
    consChar c cs = some text ↔ ∃ d ds, c = some d ∧ cs = some ds ∧ text = d :: ds := by
  cases c <;> cases cs <;> simp [consChar, eq_comm]

theorem joinPieces_lenient {ps : List Piece} {cs : List Char} (h : joinPieces false ps = some cs) :
    joinPieces true ps = some cs := by
  fun_induction joinPieces false ps generalizing cs with
  | case1 => exact h
  | case2 c ps ih =>
    obtain ⟨d, ds, hd, hds, rfl⟩ := consChar_some.mp h
    rw [joinPieces, hd, ih hds]
    rfl
  | case3 ps ih => cases h
  | case4 u v ps hpair ih =>
    obtain ⟨d, ds, hd, hds, rfl⟩ := consChar_some.mp h
    rw [joinPieces, if_pos hpair, hd, ih hds]
    rfl
  | case5 u v ps hpair ih =>
    obtain ⟨d, ds, hd, hds, rfl⟩ := consChar_some.mp h
    rw [joinPieces, if_neg hpair, ih hds, loneUnit_lenient hd]
    rfl
  | case6 u ps hlast ih =>
    obtain ⟨d, ds, hd, hds, rfl⟩ := consChar_some.mp h
    rw [joinPieces, ih hds, loneUnit_lenient hd]
    · rfl
    · exact hlast

theorem joinText_lenient {ps : List Piece} {s : String} (h : joinText false ps = some s) :
    joinText true ps = some s := by
  obtain ⟨cs, hcs, rfl⟩ := Option.map_eq_some_iff.mp h
  rw [joinText, joinPieces_lenient hcs]
  rfl

theorem readPieces_plain {c : Char} (hq : c ≠ '"') (hs : c ≠ '\\') (hc : ¬ c.toNat < 32)
    (rs : List Rune) : readPieces (some c :: rs) = addPiece (.char c) (readPieces rs) := by
  rw [readPieces, if_neg hc]
  all_goals (intros; contradiction)

theorem readPieces_escape (c : Char) (rs : List Rune) :
    readPieces (runes (escapeChar c).toList ++ rs) = addPiece (pieceOf c) (readPieces rs) := by
  by_cases hq : c = '"'
  · subst hq; rfl
  by_cases hs : c = '\\'
  · subst hs; rfl
  by_cases hb : c = '\x08'
  · subst hb; rfl
  by_cases hf : c = '\x0c'
  · subst hf; rfl
  by_cases hn : c = '\n'
  · subst hn; rfl
  by_cases hr : c = '\r'
  · subst hr; rfl
  by_cases ht : c = '\t'
  · subst ht; rfl
  unfold escapeChar
  rw [if_neg hq, if_neg hs, if_neg hb, if_neg hf, if_neg hn, if_neg hr, if_neg ht]
  by_cases hc : c.toNat < 32
  · -- two zeros and two hexadecimal digits
    have hp : pieceOf c = .unit c.toNat := by simp [pieceOf, hc, hb, hf, hn, hr, ht]
    have hd : (UInt8.ofNat c.toNat).toNat = c.toNat := by
      rw [UInt8.toNat_ofNat']
      omega
    have ha := hexValue_hexDigit (n := c.toNat / 16) (by omega)
    have hb := hexValue_hexDigit (n := c.toNat % 16) (by omega)
    have hz : hexValue '0' = some 0 := by decide
    have hu : hexUnit '0' '0' (hexDigit (c.toNat / 16)) (hexDigit (c.toNat % 16)) =
        some c.toNat := by
      simp only [hexUnit, hz, ha, hb, Option.bind_eq_bind, Option.bind_some]
      congr 1
      omega
    rw [if_pos hc, hexEncode, hp]
    simp only [String.toList_append, String.toList_ofList, hexChars, hd]
    change readPieces (some '\\' :: some 'u' :: some '0' :: some '0' ::
      some (hexDigit (c.toNat / 16)) :: some (hexDigit (c.toNat % 16)) :: rs) = _
    rw [readPieces, hu, Option.bind_some]
  · have hp : pieceOf c = .char c := by simp [pieceOf, hc]
    rw [if_neg hc, String.toList_singleton, hp]
    exact readPieces_plain hq hs hc rs

theorem readPieces_quote (s : String) (rs : List Rune) :
    runes (quote s).toList ++ rs =
      some '"' :: (runes (String.join (s.toList.map escapeChar)).toList ++
      some '"' :: rs) ∧
    readPieces (runes (String.join (s.toList.map escapeChar)).toList ++ some '"' :: rs) =
      some (rawString s, rs) := by
  refine ⟨by simp [quote, runes], ?_⟩
  rw [rawString]
  induction s.toList with
  | nil => rfl
  | cons c cs ih =>
    rw [List.map_cons, String.join_cons, String.toList_append, runes, List.map_append,
      List.append_assoc, ← runes, readPieces_escape, ← runes, ih]
    rfl

mutual

def Valid : Value → Prop
  | .number literal => isNumber literal.toList = true
  | .array items => ValidItems items
  | .object members => ValidMembers members
  | _ => True

def ValidItems : List Value → Prop
  | [] => True
  | item :: items => Valid item ∧ ValidItems items

def ValidMembers : List (String × Value) → Prop
  | [] => True
  | (_, value) :: members => Valid value ∧ ValidMembers members

end

theorem validItems_map {α : Type} {f : α → Value} (h : ∀ a, Valid (f a)) (as : List α) :
    ValidItems (as.map f) := by
  induction as with
  | nil => simp [ValidItems]
  | cons a as ih => exact ⟨h a, ih⟩

mutual

def rawValue : Value → Node
  | .null => .null
  | .bool b => .bool b
  | .number literal => .number literal
  | .string s => .string (rawString s)
  | .array items => .array (rawItems items)
  | .object members => .object (rawMembers members)

def rawItems : List Value → List Node
  | [] => []
  | item :: items => rawValue item :: rawItems items

def rawMembers : List (String × Value) → List (List Piece × Node)
  | [] => []
  | (name, value) :: members => (rawString name, rawValue value) :: rawMembers members

end

mutual

theorem decode_rawValue (lenient : Bool) : ∀ v : Value, (rawValue v).decode lenient = some v
  | .null => rfl
  | .bool _ => rfl
  | .number _ => rfl
  | .string s => by simp [rawValue, Node.decode]
  | .array items => by simp [rawValue, Node.decode, decode_rawItems lenient items]
  | .object members => by simp [rawValue, Node.decode, decode_rawMembers lenient members]

theorem decode_rawItems (lenient : Bool) : ∀ items : List Value,
    decodeItems lenient (rawItems items) = some items
  | [] => rfl
  | item :: items => by
    simp [rawItems, decodeItems, decode_rawValue lenient item, decode_rawItems lenient items]

theorem decode_rawMembers (lenient : Bool) : ∀ members : List (String × Value),
    decodeMembers lenient (rawMembers members) = some members
  | [] => rfl
  | (name, value) :: members => by
    simp [rawMembers, decodeMembers, decode_rawValue lenient value,
      decode_rawMembers lenient members]

end

/-- What follows a value does not go on with a number. -/
def Follows (rest : List Rune) : Prop := ∀ r ∈ rest.head?, r.any isNumberChar = false

theorem skipSpace_append {ws : List Char} (h : ∀ c ∈ ws, isSpace c = true) (rs : List Rune) :
    skipSpace (runes ws ++ rs) = skipSpace rs := by
  rw [skipSpace, List.dropWhile_append_of_pos]
  · rfl
  · intro r hr
    obtain ⟨c, hc, rfl⟩ := List.mem_map.mp hr
    simpa using h c hc

theorem newline_space (pretty : Bool) (depth : ℕ) :
    ∀ c ∈ (newline pretty depth).toList, isSpace c = true := by
  cases pretty with
  | false => simp [newline]
  | true =>
    have hindent : ∀ c ∈ "  ".toList, isSpace c = true := by simp [isSpace]
    have hbreak : ∀ c ∈ "\n".toList, isSpace c = true := by simp [isSpace]
    have h : ∀ n, ∀ c ∈ (String.join (List.replicate n "  ")).toList, isSpace c = true := by
      intro n
      induction n with
      | zero => simp
      | succ n ih =>
        intro c hc
        rw [List.replicate_succ, String.join_cons, String.toList_append] at hc
        rcases List.mem_append.mp hc with hc | hc
        · exact hindent c hc
        · exact ih c hc
    intro c hc
    simp only [newline, if_true, String.toList_append] at hc
    rcases List.mem_append.mp hc with hc | hc
    · exact hbreak c hc
    · exact h depth c hc

theorem readNumber_append {literal : String} (h : isNumber literal.toList = true)
    {rest : List Rune} (hr : Follows rest) :
    readNumber (runes literal.toList ++ rest) = some (.number literal, rest) := by
  have hall : ∀ r ∈ runes literal.toList, r.any isNumberChar = true := by
    intro r hr
    obtain ⟨c, hc, rfl⟩ := List.mem_map.mp hr
    simp only [isNumber, Bool.and_eq_true, List.all_eq_true] at h
    exact h.1 c hc
  have htake : (rest.takeWhile fun r => r.any isNumberChar) = [] ∧
      (rest.dropWhile fun r => r.any isNumberChar) = rest := by
    cases rest with
    | nil => exact ⟨rfl, rfl⟩
    | cons r rest =>
      have hc : r.any isNumberChar = false := hr r rfl
      simp [hc]
  have hid : (runes literal.toList).filterMap id = literal.toList := by
    simp [runes]
  simp only [readNumber, List.takeWhile_append_of_pos hall, List.dropWhile_append_of_pos hall,
    htake.1, htake.2, List.append_nil, hid, h, if_true, String.ofList_toList]

theorem isNumber_head {literal : List Char} (h : isNumber literal = true) :
    ∃ c cs, literal = c :: cs ∧ isNumberChar c = true := by
  cases literal with
  | nil => cases h
  | cons c cs =>
    simp only [isNumber, Bool.and_eq_true, List.all_cons] at h
    exact ⟨c, cs, rfl, h.1.1⟩

theorem isNumberChar_ne {c d : Char} (h : isNumberChar c = true) (hd : isNumberChar d = false) :
    c ≠ d := by
  rintro rfl
  rw [h] at hd
  cases hd

theorem readValue_space {n : ℕ} {ws : List Char} (h : ∀ c ∈ ws, isSpace c = true)
    (rs : List Rune) : readValue n (runes ws ++ rs) = readValue n rs := by
  cases n with
  | zero => rfl
  | succ n => simp only [readValue, skipSpace_append h]

theorem readMember_space {n : ℕ} {ws : List Char} (h : ∀ c ∈ ws, isSpace c = true)
    (rs : List Rune) : readMember n (runes ws ++ rs) = readMember n rs := by
  cases n with
  | zero => rfl
  | succ n => simp only [readMember, skipSpace_append h]

theorem readValue_number {n : ℕ} {literal : String} (h : isNumber literal.toList = true)
    {rest : List Rune} (hr : Follows rest) :
    readValue (n + 1) (runes literal.toList ++ rest) = some (.number literal, rest) := by
  obtain ⟨c, cs, hl, hc⟩ := isNumber_head h
  have hread := readNumber_append h hr
  rw [hl] at hread ⊢
  have hspace : isSpace c = false := by
    simp only [isSpace, Bool.or_eq_false_iff, decide_eq_false_iff_not]
    refine ⟨⟨⟨?_, ?_⟩, ?_⟩, ?_⟩ <;> exact isNumberChar_ne hc (by decide)
  have hskip : skipSpace (runes (c :: cs) ++ rest) = some c :: (runes cs ++ rest) := by
    simp [runes, skipSpace, hspace]
  rw [readValue, hskip]
  simp only [if_neg (isNumberChar_ne hc (d := '"') (by decide)),
    if_neg (isNumberChar_ne hc (d := '[') (by decide)),
    if_neg (isNumberChar_ne hc (d := '\x7b') (by decide)), hc, if_true]
  exact hread

theorem readValue_string {n : ℕ} (s : String) (rest : List Rune) :
    readValue (n + 1) (runes (quote s).toList ++ rest) = some (.string (rawString s), rest) := by
  obtain ⟨hq, hread⟩ := readPieces_quote s rest
  have hskip : ∀ rs, skipSpace (some '"' :: rs) = some '"' :: rs := fun _ => rfl
  rw [hq, readValue, hskip]
  simp only [if_true, hread]
  rfl

theorem follows_close {close : Char} (hc : isNumberChar close = false) {ws : List Char}
    (hw : ∀ c ∈ ws, isSpace c = true) (rest : List Rune) :
    Follows (runes ws ++ some close :: rest) := by
  intro r h
  cases ws with
  | nil => exact Option.some.inj h ▸ hc
  | cons d ws =>
    have hd : some d = r := Option.some.inj h
    have hs := hw d (by simp)
    rw [← hd]
    simp only [isSpace, Bool.or_eq_true, decide_eq_true_eq] at hs
    rcases hs with ((rfl | rfl) | rfl) | rfl <;> decide

def colon (pretty : Bool) : String := if pretty then ": " else ":"

theorem readMember_append {n : ℕ} (pretty : Bool) (name : String) {rs rest : List Rune}
    {value : Node} (h : readValue n (rs ++ rest) = some (value, rest)) :
    readMember (n + 1) (runes (quote name).toList ++
      (runes (colon pretty).toList ++ (rs ++ rest))) = some ((rawString name, value), rest) := by
  have hskip : ∀ c ∈ ['"', ':'], ∀ rs, skipSpace (some c :: rs) = some c :: rs := by
    intro c hc rs
    simp only [List.mem_cons, List.not_mem_nil, or_false] at hc
    rcases hc with rfl | rfl <;> rfl
  obtain ⟨ws, hw, hcolon⟩ : ∃ ws, (∀ c ∈ ws, isSpace c = true) ∧
      runes (colon pretty).toList = some ':' :: runes ws := by
    cases pretty
    · exact ⟨[], by simp, rfl⟩
    · exact ⟨[' '], by simp [isSpace], rfl⟩
  obtain ⟨hq, hread⟩ := readPieces_quote name (some ':' :: (runes ws ++ (rs ++ rest)))
  rw [hcolon, List.cons_append, hq, readMember, hskip '"' (by simp)]
  simp only [hread, Option.bind_eq_bind, Option.bind_some, hskip ':' (by simp),
    readValue_space hw, h]
  rfl

section Steps

variable {n : ℕ} {rs rs' rest : List Rune}

theorem readValue_skip : readValue n (skipSpace rs) = readValue n rs := by
  cases n with
  | zero => rfl
  | succ n => simp only [readValue, skipSpace, List.dropWhile_idempotent]

theorem readMember_skip : readMember n (skipSpace rs) = readMember n rs := by
  cases n with
  | zero => rfl
  | succ n => simp only [readMember, skipSpace, List.dropWhile_idempotent]

theorem readValue_array {item : Node} {items : List Node}
    (h : readValue n rs = some (item, rs')) (ht : readItems n rs' = some (items, rest)) :
    readValue (n + 1) (some '[' :: rs) = some (.array (item :: items), rest) := by
  have hskip : skipSpace (some '[' :: rs) = some '[' :: rs := rfl
  have hne : ∀ t, skipSpace rs ≠ some ']' :: t := by
    intro t he
    rw [← readValue_skip, he] at h
    cases n <;> cases h
  rw [readValue, hskip]
  simp only [if_neg (show '[' ≠ '"' by decide), if_true]
  rw [readValue_skip, h]
  simp only [Option.bind_eq_bind, Option.bind_some, ht]
  rfl

theorem readItems_item {item : Node} {items : List Node}
    (h : readValue n rs = some (item, rs')) (ht : readItems n rs' = some (items, rest)) :
    readItems (n + 1) (some ',' :: rs) = some (item :: items, rest) := by
  have hskip : skipSpace (some ',' :: rs) = some ',' :: rs := rfl
  rw [readItems, hskip]
  simp only [h, Option.bind_eq_bind, Option.bind_some, ht]
  rfl

theorem readValue_object {member : List Piece × Node} {members : List (List Piece × Node)}
    (h : readMember n rs = some (member, rs')) (ht : readMembers n rs' = some (members, rest)) :
    readValue (n + 1) (some '\x7b' :: rs) = some (.object (member :: members), rest) := by
  have hskip : skipSpace (some '\x7b' :: rs) = some '\x7b' :: rs := rfl
  have hne : ∀ t, skipSpace rs ≠ some '\x7d' :: t := by
    intro t he
    rw [← readMember_skip, he] at h
    cases n <;> cases h
  rw [readValue, hskip]
  simp only [if_neg (show '\x7b' ≠ '"' by decide), if_neg (show '\x7b' ≠ '[' by decide), if_true]
  rw [readMember_skip, h]
  simp only [Option.bind_eq_bind, Option.bind_some, ht]
  rfl

theorem readMembers_member {member : List Piece × Node} {members : List (List Piece × Node)}
    (h : readMember n rs = some (member, rs')) (ht : readMembers n rs' = some (members, rest)) :
    readMembers (n + 1) (some ',' :: rs) = some (member :: members, rest) := by
  have hskip : skipSpace (some ',' :: rs) = some ',' :: rs := rfl
  rw [readMembers, hskip]
  simp only [h, Option.bind_eq_bind, Option.bind_some, ht]
  rfl

end Steps

theorem runes_append (cs ds : List Char) : runes (cs ++ ds) = runes cs ++ runes ds :=
  List.map_append

theorem follows_items (pretty : Bool) (items : List Value) (depth : ℕ) (rest : List Rune) :
    Follows (runes (renderItems pretty depth items).toList ++
      (runes (newline pretty depth).toList ++ some ']' :: rest)) := by
  cases items with
  | nil => exact follows_close (by decide) (newline_space pretty depth) rest
  | cons item items =>
    intro r hr
    simp only [renderItems, String.toList_append, runes_append, List.append_assoc] at hr
    exact Option.some.inj hr ▸ (by decide)

theorem follows_members (pretty : Bool) (members : List (String × Value)) (depth : ℕ)
    (rest : List Rune) : Follows (runes (renderMembers pretty depth members).toList ++
      (runes (newline pretty depth).toList ++ some '\x7d' :: rest)) := by
  cases members with
  | nil => exact follows_close (by decide) (newline_space pretty depth) rest
  | cons member members =>
    intro r hr
    simp only [renderMembers, String.toList_append, runes_append, List.append_assoc] at hr
    exact Option.some.inj hr ▸ (by decide)

variable (pretty : Bool)

mutual

/-- The reader gives back what was written, on fuel for each written character. -/
theorem readValue_render : ∀ (v : Value) (depth n : ℕ) (rest : List Rune), Valid v →
    Follows rest → (render pretty depth v).toList.length ≤ n →
    readValue n (runes (render pretty depth v).toList ++ rest) = some (rawValue v, rest)
  | .null, depth, n, rest, _, _, h => by
    obtain ⟨n, rfl⟩ := Nat.exists_eq_add_of_le' (Nat.le_trans (by simp [render]) h : 1 ≤ n)
    rw [render, readValue]
    rfl
  | .bool b, depth, n, rest, _, _, h => by
    obtain ⟨n, rfl⟩ := Nat.exists_eq_add_of_le' (Nat.le_trans
      (by cases b <;> simp [render]) h : 1 ≤ n)
    rw [render, readValue]
    cases b <;> rfl
  | .number literal, depth, n, rest, hv, hr, h => by
    rw [Valid] at hv
    obtain ⟨c, cs, hl, -⟩ := isNumber_head hv
    obtain ⟨n, rfl⟩ := Nat.exists_eq_add_of_le' (Nat.le_trans
      (by simp [render, hl]) h : 1 ≤ n)
    rw [render]
    exact readValue_number hv hr
  | .string s, depth, n, rest, _, _, h => by
    obtain ⟨n, rfl⟩ := Nat.exists_eq_add_of_le' (Nat.le_trans
      (by simp [render, quote]) h : 1 ≤ n)
    rw [render]
    exact readValue_string s rest
  | .array [], depth, n, rest, _, _, h => by
    obtain ⟨n, rfl⟩ := Nat.exists_eq_add_of_le' (Nat.le_trans (by simp [render]) h : 1 ≤ n)
    rw [render, readValue]
    rfl
  | .array (item :: items), depth, n, rest, hv, hr, h => by
    simp only [Valid, ValidItems] at hv
    simp only [render, String.toList_append, List.length_append] at h
    have hopen : "[".toList.length = 1 := rfl
    have hclose : "]".toList.length = 1 := rfl
    obtain ⟨n, rfl⟩ := Nat.exists_eq_add_of_le' (by omega : 1 ≤ n)
    have hitem := readValue_render item (depth + 1) n _ hv.1
      (follows_items pretty items depth rest) (by omega)
    rw [← readValue_space (newline_space pretty (depth + 1))] at hitem
    simp only [render, String.toList_append, runes_append, List.append_assoc]
    exact readValue_array hitem (readItems_render items depth n rest hv.2 (by omega))
  | .object [], depth, n, rest, _, _, h => by
    obtain ⟨n, rfl⟩ := Nat.exists_eq_add_of_le' (Nat.le_trans (by simp [render]) h : 1 ≤ n)
    rw [render, readValue]
    rfl
  | .object ((name, value) :: members), depth, n, rest, hv, hr, h => by
    simp only [Valid, ValidMembers] at hv
    simp only [render, String.toList_append, List.length_append] at h
    have hopen : "\x7b".toList.length = 1 := rfl
    have hclose : "\x7d".toList.length = 1 := rfl
    have hquote : 2 ≤ (quote name).toList.length := by simp [quote]
    obtain ⟨n, rfl⟩ := Nat.exists_eq_add_of_le' (by omega : 2 ≤ n)
    have hvalue := readValue_render value (depth + 1) n _ hv.1
      (follows_members pretty members depth rest) (by omega)
    have hmember := readMember_append pretty name hvalue
    rw [← readMember_space (newline_space pretty (depth + 1))] at hmember
    simp only [render, String.toList_append, runes_append, List.append_assoc]
    exact readValue_object hmember (readMembers_render members depth (n + 1) rest hv.2 (by omega))

theorem readItems_render : ∀ (items : List Value) (depth n : ℕ) (rest : List Rune),
    ValidItems items → (renderItems pretty depth items).toList.length < n →
    readItems n (runes (renderItems pretty depth items).toList ++
      (runes (newline pretty depth).toList ++ some ']' :: rest)) = some (rawItems items, rest)
  | [], depth, n, rest, _, h => by
    obtain ⟨n, rfl⟩ := Nat.exists_eq_add_of_le' (Nat.lt_of_le_of_lt (Nat.zero_le _) h : 0 < n)
    rw [renderItems, String.toList_empty, runes, List.map_nil, List.nil_append, readItems,
      skipSpace_append (newline_space pretty depth)]
    rfl
  | item :: items, depth, n, rest, hv, h => by
    rw [ValidItems] at hv
    simp only [renderItems, String.toList_append, List.length_append] at h
    have hcomma : ",".toList.length = 1 := rfl
    obtain ⟨n, rfl⟩ := Nat.exists_eq_add_of_le' (by omega : 1 ≤ n)
    have hitem := readValue_render item (depth + 1) n _ hv.1
      (follows_items pretty items depth rest) (by omega)
    rw [← readValue_space (newline_space pretty (depth + 1))] at hitem
    simp only [renderItems, String.toList_append, runes_append, List.append_assoc]
    exact readItems_item hitem (readItems_render items depth n rest hv.2 (by omega))

theorem readMembers_render : ∀ (members : List (String × Value)) (depth n : ℕ)
    (rest : List Rune), ValidMembers members →
    (renderMembers pretty depth members).toList.length < n →
    readMembers n (runes (renderMembers pretty depth members).toList ++
      (runes (newline pretty depth).toList ++ some '\x7d' :: rest)) =
        some (rawMembers members, rest)
  | [], depth, n, rest, _, h => by
    obtain ⟨n, rfl⟩ := Nat.exists_eq_add_of_le' (Nat.lt_of_le_of_lt (Nat.zero_le _) h : 0 < n)
    rw [renderMembers, String.toList_empty, runes, List.map_nil, List.nil_append, readMembers,
      skipSpace_append (newline_space pretty depth)]
    rfl
  | (name, value) :: members, depth, n, rest, hv, h => by
    rw [ValidMembers] at hv
    simp only [renderMembers, String.toList_append, List.length_append] at h
    have hcomma : ",".toList.length = 1 := rfl
    have hquote : 2 ≤ (quote name).toList.length := by simp [quote]
    obtain ⟨n, rfl⟩ := Nat.exists_eq_add_of_le' (by omega : 2 ≤ n)
    have hvalue := readValue_render value (depth + 1) n _ hv.1
      (follows_members pretty members depth rest) (by omega)
    have hmember := readMember_append pretty name hvalue
    rw [← readMember_space (newline_space pretty (depth + 1))] at hmember
    simp only [renderMembers, String.toList_append, runes_append, List.append_assoc]
    exact readMembers_member hmember
      (readMembers_render members depth (n + 1) rest hv.2 (by omega))

end

theorem readDocument_render {v : Value} (hv : Valid v) :
    readDocument (asBytes (render pretty 0 v)) = some (rawValue v) := by
  have hlen : (runes (render pretty 0 v).toList).length = (render pretty 0 v).toList.length :=
    List.length_map _
  have h := readValue_render pretty v 0 ((render pretty 0 v).toList.length + 1) [] hv
    (by simp [Follows]) (by omega)
  rw [List.append_nil] at h
  rw [readDocument, decodeRunes_asBytes]
  simp only [hlen, h, Option.bind_eq_bind, Option.bind_some]
  rfl

theorem runeAt_some {bytes : Bytes} {c : Char} (h : runeAt bytes = some c) :
    ∃ rest, bytes = String.utf8EncodeChar c ++ rest := by
  obtain ⟨l, hl⟩ := ByteArray.exists_of_utf8DecodeChar?_eq_some h
  refine ⟨l.data.toList, ?_⟩
  have hd := congrArg (fun b : ByteArray => b.data.toList) hl
  simpa using hd

theorem space_byte {c : Char} (h : isSpace c = true) :
    ∃ b, String.utf8EncodeChar c = [b] ∧ isJsonSpace b = true := by
  have hc : c = ' ' ∨ c = '\t' ∨ c = '\n' ∨ c = '\r' := by
    simpa [isSpace, or_assoc] using h
  rcases hc with rfl | rfl | rfl | rfl
  · exact ⟨32, by decide, by decide⟩
  · exact ⟨9, by decide, by decide⟩
  · exact ⟨10, by decide, by decide⟩
  · exact ⟨13, by decide, by decide⟩

theorem firstByte_rune {document : Bytes} {c : Char} {b : UInt8} {rs : List Rune}
    (hc : String.utf8EncodeChar c = [b]) (hb : isJsonSpace b = false)
    (h : skipSpace (decodeRunes document) = some c :: rs) : firstByte document = some b := by
  induction document with
  | nil => cases h
  | cons first rest ih =>
    cases hr : runeAt (first :: rest) with
    | none =>
      simp [decodeRunes, decodeFrom, hr, skipSpace] at h
    | some d =>
      obtain ⟨tail, htail⟩ := runeAt_some hr
      rw [htail] at h
      rw [decodeRunes, decodeFrom_char] at h
      by_cases hd : isSpace d = true
      · obtain ⟨byte, hbyte, hspace⟩ := space_byte hd
        rw [hbyte] at htail
        obtain ⟨rfl, rfl⟩ := List.cons.inj htail
        have hskip : firstByte (first :: rest) = firstByte rest := by simp [firstByte, hspace]
        rw [hskip]
        apply ih
        simpa [decodeRunes, skipSpace, hd] using h
      · have hcd : c = d := by
          simp [skipSpace, hd] at h
          exact h.1.symm
        rw [← hcd, hc] at htail
        obtain ⟨rfl, rfl⟩ := List.cons.inj htail
        simp [firstByte, hb]

def opening : Node → Option Char
  | .array _ => some '['
  | .object _ => some '\x7b'
  | _ => none

theorem readWord_opening {rs rest : List Rune} {node : Node}
    (h : readWord rs = some (node, rest)) : opening node = none := by
  unfold readWord at h
  split at h <;> cases h <;> rfl

theorem readNumber_opening {rs rest : List Rune} {node : Node}
    (h : readNumber rs = some (node, rest)) : opening node = none := by
  unfold readNumber at h
  dsimp only at h
  rw [Option.ite_none_right_eq_some] at h
  obtain ⟨-, he⟩ := h
  cases he
  rfl

theorem readValue_opening {n : ℕ} {rs rest : List Rune} {node : Node} {c : Char}
    (h : readValue n rs = some (node, rest)) (hc : opening node = some c) :
    ∃ tail, skipSpace rs = some c :: tail := by
  cases n with
  | zero => simp [readValue] at h
  | succ n =>
    rw [readValue] at h
    split at h
    · rename_i d tail hs
      refine ⟨tail, ?_⟩
      rw [hs]
      by_cases hq : d = '"'
      · rw [if_pos hq] at h
        obtain ⟨⟨_, _⟩, -, he⟩ := Option.map_eq_some_iff.mp h
        cases he
        cases hc
      rw [if_neg hq] at h
      by_cases ha : d = '['
      · rw [if_pos ha] at h
        split at h
        · cases h
          cases hc
          rw [ha]
        · simp only [bind, pure, Option.bind_eq_some_iff] at h
          obtain ⟨_, -, _, -, he⟩ := h
          cases he
          cases hc
          rw [ha]
      rw [if_neg ha] at h
      by_cases ho : d = '\x7b'
      · rw [if_pos ho] at h
        split at h
        · cases h
          cases hc
          rw [ho]
        · simp only [bind, pure, Option.bind_eq_some_iff] at h
          obtain ⟨_, -, _, -, he⟩ := h
          cases he
          cases hc
          rw [ho]
      rw [if_neg ho] at h
      by_cases hn : isNumberChar d = true
      · rw [if_pos hn] at h
        rw [readNumber_opening h] at hc
        cases hc
      · rw [if_neg hn] at h
        rw [readWord_opening h] at hc
        cases hc
    · cases h

theorem readDocument_opening {document : Bytes} {node : Node} {c : Char}
    (h : readDocument document = some node) (hc : opening node = some c) :
    ∃ tail, skipSpace (decodeRunes document) = some c :: tail := by
  simp only [readDocument, bind, Option.bind_eq_some_iff] at h
  obtain ⟨⟨value, rest⟩, hvalue, h⟩ := h
  rw [Option.ite_none_right_eq_some] at h
  obtain ⟨-, he⟩ := h
  cases he
  exact readValue_opening hvalue hc

end QCap.JsonReader
