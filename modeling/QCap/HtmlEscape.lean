import QCap.JsonGrammar

/-!
# HTML characters in JSON

`encoding/json` writes the characters that HTML gives a meaning as units. A document means the
same with them escaped, to every decoder.
-/
namespace QCap.HtmlEscape

open QCap.Text QCap.Formats QCap.Json QCap.JsonReader QCap.JsonGrammar

def htmlChars : List Char := ['<', '>', '&', '\u2028', '\u2029']

def hexQuad (u : ℕ) : List Char :=
  [hexDigit (u / 4096), hexDigit (u / 256 % 16), hexDigit (u / 16 % 16), hexDigit (u % 16)]

def escapeHtml (c : Char) : List Char :=
  if c ∈ htmlChars then '\\' :: 'u' :: hexQuad c.toNat else [c]

/-- `json.HTMLEscape`. Outside of strings there is nothing to escape. -/
def htmlEscape (text : String) : String := String.ofList (text.toList.flatMap escapeHtml)

example : htmlEscape "\"a<b\"" = "\"a\\u003cb\"" := by decide

def escapeRune : Rune → List Rune
  | some c => runes (escapeHtml c)
  | none => [none]

def escapeRunes (rs : List Rune) : List Rune := rs.flatMap escapeRune

def escapePiece : Piece → Piece
  | .char c => if c ∈ htmlChars then .unit c.toNat else .char c
  | p => p

variable {c : Char} {rs rest : List Rune} {ps : List Piece}

theorem forall_htmlChars {p : Char → Prop} :
    (∀ c ∈ htmlChars, p c) ↔ p '<' ∧ p '>' ∧ p '&' ∧ p '\u2028' ∧ p '\u2029' := by
  simp [htmlChars]

theorem html_unit (h : c ∈ htmlChars) : c.toNat < 0xD800 := by
  have hlow : ∀ d ∈ htmlChars, d.toNat < 0xD800 := forall_htmlChars.mpr (by decide)
  exact hlow c h

@[simp] theorem escapeRunes_nil : escapeRunes [] = [] := rfl

theorem escapeRunes_plain (h : c ∉ htmlChars) :
    escapeRunes (some c :: rs) = some c :: escapeRunes rs := by
  simp [escapeRunes, escapeRune, escapeHtml, h, runes]

theorem escapeRunes_bad : escapeRunes (none :: rs) = none :: escapeRunes rs := rfl

theorem escapeRunes_html (h : c ∈ htmlChars) :
    escapeRunes (some c :: rs) = some '\\' :: some 'u' :: (runes (hexQuad c.toNat) ++
      escapeRunes rs) := by
  simp [escapeRunes, escapeRune, escapeHtml, h, runes]

theorem runes_htmlEscape (text : String) :
    decodeRunes (asBytes (htmlEscape text)) = escapeRunes (decodeRunes (asBytes text)) := by
  rw [decodeRunes_asBytes, decodeRunes_asBytes, htmlEscape, String.toList_ofList]
  induction text.toList with
  | nil => rfl
  | cons c cs ih =>
    rw [List.flatMap_cons, runes_append, ih]
    rfl

theorem span_escape {q : Char → Bool} (hq : ∀ c ∈ htmlChars, q c = false) (hb : q '\\' = false)
    (rs : List Rune) :
    ((escapeRunes rs).takeWhile fun r => r.any q) = (rs.takeWhile fun r => r.any q) ∧
      ((escapeRunes rs).dropWhile fun r => r.any q) =
        escapeRunes (rs.dropWhile fun r => r.any q) := by
  induction rs with
  | nil => exact ⟨rfl, rfl⟩
  | cons r rs ih =>
    cases r with
    | none => exact ⟨rfl, rfl⟩
    | some c =>
      by_cases hc : c ∈ htmlChars
      · have hno := hq c hc
        simp [escapeRunes_html hc, hno, hb]
      · rw [escapeRunes_plain hc]
        by_cases hyes : q c = true
        · simp [hyes, ih]
        · have hno := Bool.not_eq_true _ ▸ hyes
          simp [hno, escapeRunes_plain hc]

theorem skipSpace_escape (rs : List Rune) :
    skipSpace (escapeRunes rs) = escapeRunes (skipSpace rs) :=
  (span_escape (forall_htmlChars.mpr (by decide)) (by decide) rs).2

theorem skipSpace_escape_cons {d : Char} {tail : List Rune} (hd : d ∉ htmlChars)
    (h : skipSpace rs = some d :: tail) :
    skipSpace (escapeRunes rs) = some d :: escapeRunes tail := by
  rw [skipSpace_escape, h, escapeRunes_plain hd]

theorem hexUnit_hexQuad {u : ℕ} (h : u < 65536) :
    hexUnit (hexDigit (u / 4096)) (hexDigit (u / 256 % 16)) (hexDigit (u / 16 % 16))
      (hexDigit (u % 16)) = some u := by
  have ha := hexValue_hexDigit (n := u / 4096) (by omega)
  have hb := hexValue_hexDigit (n := u / 256 % 16) (by omega)
  have hc := hexValue_hexDigit (n := u / 16 % 16) (by omega)
  have hd := hexValue_hexDigit (n := u % 16) (by omega)
  simp only [hexUnit, ha, hb, hc, hd, Option.bind_eq_bind, Option.bind_some]
  congr 1
  omega

theorem hexUnit_plain {a b c d : Char} {u : ℕ} (h : hexUnit a b c d = some u) :
    ∀ x ∈ [a, b, c, d], x ∉ htmlChars := by
  have hnone : ∀ c ∈ htmlChars, hexValue c = none := forall_htmlChars.mpr (by decide)
  simp only [hexUnit, bind, Option.bind_eq_some_iff] at h
  obtain ⟨_, ha, _, hb, _, hc, _, hd, -⟩ := h
  have hplain : ∀ x v, hexValue x = some v → x ∉ htmlChars := by
    intro x v hx hm
    rw [hnone x hm] at hx
    cases hx
  simp only [List.forall_mem_cons]
  exact ⟨hplain _ _ ha, hplain _ _ hb, hplain _ _ hc, hplain _ _ hd, by simp⟩

theorem escaped_plain {e : Char} (h : escaped c = some e) :
    c ∉ htmlChars ∧ c ≠ 'u' ∧ e ∉ htmlChars := by
  have hnone : ∀ c ∈ 'u' :: htmlChars, escaped c = none :=
    List.forall_mem_cons.mpr ⟨by decide, forall_htmlChars.mpr (by decide)⟩
  have hne : ∀ d ∈ 'u' :: htmlChars, c ≠ d := by
    rintro d hd rfl
    rw [hnone c hd] at h
    cases h
  refine ⟨fun hm => hne c (List.mem_cons_of_mem _ hm) rfl, hne 'u' List.mem_cons_self, ?_⟩
  unfold escaped at h
  split_ifs at h with hself
  · rcases hself with rfl | rfl | rfl <;> cases h <;> decide
  all_goals
    cases h
    decide

theorem readPieces_backslash {e : Char} (h : escaped c = some e) (rs : List Rune) :
    readPieces (some '\\' :: some c :: rs) = addPiece (.char e) (readPieces rs) := by
  have hu := (escaped_plain h).2.1
  rw [readPieces, h]
  · rfl
  · intro a b d f rs' _ hc
    exact hu hc

theorem readPieces_escapeHtml (c : Char) (hq : c ≠ '"') (hs : c ≠ '\\') (hc : ¬ c.toNat < 32)
    (rs : List Rune) : readPieces (escapeRunes (some c :: rs)) =
      addPiece (escapePiece (.char c)) (readPieces (escapeRunes rs)) := by
  by_cases hm : c ∈ htmlChars
  · have hu := hexUnit_hexQuad (Nat.lt_trans (html_unit hm) (by decide))
    rw [escapeRunes_html hm, escapePiece, if_pos hm]
    change readPieces (some '\\' :: some 'u' :: some _ :: some _ :: some _ :: some _ :: _) = _
    rw [readPieces, hu]
    rfl
  · rw [escapeRunes_plain hm, escapePiece, if_neg hm]
    exact readPieces_plain hq hs hc _

theorem readPieces_escape (h : readPieces rs = some (ps, rest)) :
    readPieces (escapeRunes rs) = some (ps.map escapePiece, escapeRunes rest) := by
  have hadd : ∀ {p : Piece} {read : Option (List Piece × List Rune)} {ps : List Piece},
      addPiece p read = some (ps, rest) → ∃ ps', read = some (ps', rest) ∧ ps = p :: ps' := by
    intro p read ps h
    obtain ⟨⟨ps', rest'⟩, hread, he⟩ := Option.map_eq_some_iff.mp h
    cases he
    exact ⟨ps', hread, rfl⟩
  fun_induction readPieces rs generalizing ps with
  | case1 => cases h
  | case2 rs =>
    cases h
    rfl
  | case3 a b c d rs ih =>
    obtain ⟨u, hu, h⟩ := Option.bind_eq_some_iff.mp h
    obtain ⟨ps', hread, rfl⟩ := hadd h
    have hplain := hexUnit_plain hu
    simp only [List.forall_mem_cons] at hplain
    obtain ⟨ha, hb, hc, hd, -⟩ := hplain
    rw [escapeRunes_plain (by decide), escapeRunes_plain (by decide), escapeRunes_plain ha,
      escapeRunes_plain hb, escapeRunes_plain hc, escapeRunes_plain hd, readPieces, hu,
      Option.bind_some, ih hread]
    rfl
  | case4 c rs _ ih =>
    obtain ⟨e, he, h⟩ := Option.bind_eq_some_iff.mp h
    obtain ⟨ps', hread, rfl⟩ := hadd h
    obtain ⟨hc, -, hplain⟩ := escaped_plain he
    rw [escapeRunes_plain (by decide), escapeRunes_plain hc, readPieces_backslash he, ih hread,
      List.map_cons, escapePiece, if_neg hplain]
    rfl
  | case5 => cases h
  | case6 => cases h
  | case7 c rs hq _ _ hs hc ih =>
    obtain ⟨ps', hread, rfl⟩ := hadd h
    rw [readPieces_escapeHtml c hq hs hc, ih hread]
    rfl
  | case8 rs ih =>
    obtain ⟨ps', hread, rfl⟩ := hadd h
    rw [escapeRunes_bad, readPieces, ih hread]
    rfl

@[simp] theorem escapePiece_unit (u : ℕ) : escapePiece (.unit u) = .unit u := rfl

@[simp] theorem escapePiece_bad : escapePiece .bad = .bad := rfl

theorem joinPieces_lone (lenient : Bool) {u : ℕ} {ps : List Piece}
    (h : ∀ v qs, ps = .unit v :: qs → (isHigh u && isLow v) = false) :
    joinPieces lenient (.unit u :: ps) =
      consChar (loneUnit lenient u) (joinPieces lenient ps) := by
  cases ps with
  | nil => rfl
  | cons p ps =>
    cases p with
    | char c => rfl
    | bad => rfl
    | unit v => rw [joinPieces, if_neg (by simp [h v ps rfl])]

theorem joinPieces_escape (lenient : Bool) (ps : List Piece) :
    joinPieces lenient (ps.map escapePiece) = joinPieces lenient ps := by
  have hchar : ∀ c ps, joinPieces lenient (escapePiece (.char c) :: ps) =
      consChar (some c) (joinPieces lenient ps) := by
    intro c ps
    by_cases hc : c ∈ htmlChars
    · rw [escapePiece, if_pos hc, joinPieces_unit (html_unit hc), Char.ofNat_toNat]
    · rw [escapePiece, if_neg hc]
      rfl
  fun_induction joinPieces lenient ps with
  | case1 => rfl
  | case2 c ps ih => rw [List.map_cons, hchar, ih]
  | case3 ps ih => rw [List.map_cons, escapePiece_bad, joinPieces, ih]
  | case4 u v ps hpair ih =>
    rw [List.map_cons, List.map_cons, escapePiece_unit, escapePiece_unit, joinPieces,
      if_pos hpair, ih]
  | case5 u v ps hpair ih =>
    rw [List.map_cons, escapePiece_unit, joinPieces_lone, ih]
    intro w qs hw
    rw [List.map_cons, escapePiece_unit] at hw
    cases hw
    exact Bool.not_eq_true _ ▸ hpair
  | case6 u ps hlast ih =>
    rw [List.map_cons, escapePiece_unit, joinPieces_lone, ih]
    intro w qs hw
    cases ps with
    | nil => cases hw
    | cons p ps =>
      cases p with
      | unit v => exact absurd rfl (hlast v ps)
      | bad => cases hw
      | char c =>
        rw [List.map_cons, escapePiece] at hw
        by_cases hc : c ∈ htmlChars
        · rw [if_pos hc] at hw
          cases hw
          have hlow : ∀ d ∈ htmlChars, isLow d.toNat = false :=
            forall_htmlChars.mpr (by decide)
          rw [hlow c hc, Bool.and_false]
        · rw [if_neg hc] at hw
          cases hw

theorem joinText_escape (lenient : Bool) (ps : List Piece) :
    joinText lenient (ps.map escapePiece) = joinText lenient ps := by
  rw [joinText, joinPieces_escape, joinText]

mutual

def escapeNode : Node → Node
  | .string ps => .string (ps.map escapePiece)
  | .array vs => .array (escapeNodes vs)
  | .object ms => .object (escapeMembers ms)
  | .null => .null
  | .bool b => .bool b
  | .number literal => .number literal

def escapeNodes : List Node → List Node
  | [] => []
  | v :: vs => escapeNode v :: escapeNodes vs

def escapeMembers : List (List Piece × Node) → List (List Piece × Node)
  | [] => []
  | (name, v) :: ms => (name.map escapePiece, escapeNode v) :: escapeMembers ms

end

def escapeForm : Form → Form
  | .value v => .value (escapeNode v)
  | .items vs => .items (escapeNodes vs)
  | .member m => .member (m.1.map escapePiece, escapeNode m.2)
  | .members ms => .members (escapeMembers ms)

theorem readNumber_escape {node : Node} (h : readNumber rs = some (node, rest)) :
    readNumber (escapeRunes rs) = some (escapeNode node, escapeRunes rest) := by
  obtain ⟨htake, hdrop⟩ := span_escape (q := isNumberChar) (forall_htmlChars.mpr (by decide))
    (by decide) rs
  unfold readNumber at h ⊢
  dsimp only at h ⊢
  rw [htake, hdrop]
  rw [Option.ite_none_right_eq_some] at h ⊢
  obtain ⟨hn, he⟩ := h
  cases he
  exact ⟨hn, rfl⟩

theorem readWord_escape {node : Node} (h : readWord rs = some (node, rest)) :
    readWord (escapeRunes rs) = some (escapeNode node, escapeRunes rest) := by
  unfold readWord at h
  split at h
  · cases h
    rfl
  · cases h
    rfl
  · cases h
    rfl
  · cases h

theorem derives_escape {form : Form} (h : Derives rs form rest) :
    Derives (escapeRunes rs) (escapeForm form) (escapeRunes rest) := by
  induction h with
  | string hs hp => exact .string (skipSpace_escape_cons (by decide) hs) (readPieces_escape hp)
  | @number rs tail rest c node hs hc hn =>
    have hno : ∀ c ∈ htmlChars, isNumberChar c = false := forall_htmlChars.mpr (by decide)
    have hplain : c ∉ htmlChars := by
      intro hm
      rw [hno c hm] at hc
      cases hc
    have hread := readNumber_escape hn
    rw [escapeRunes_plain hplain] at hread
    exact .number (skipSpace_escape_cons hplain hs) hc hread
  | word hw =>
    have hread := readWord_escape hw
    rw [← skipSpace_escape] at hread
    exact .word hread
  | arrayNil hs hc =>
    exact .arrayNil (skipSpace_escape_cons (by decide) hs) (skipSpace_escape_cons (by decide) hc)
  | array hs _ _ ihv ihvs => exact .array (skipSpace_escape_cons (by decide) hs) ihv ihvs
  | objectNil hs hc =>
    exact .objectNil (skipSpace_escape_cons (by decide) hs) (skipSpace_escape_cons (by decide) hc)
  | object hs _ _ ihm ihms => exact .object (skipSpace_escape_cons (by decide) hs) ihm ihms
  | itemsNil hs => exact .itemsNil (skipSpace_escape_cons (by decide) hs)
  | itemsCons hs _ _ ihv ihvs => exact .itemsCons (skipSpace_escape_cons (by decide) hs) ihv ihvs
  | member hs hp hc _ ihv =>
    exact .member (skipSpace_escape_cons (by decide) hs) (readPieces_escape hp)
      (skipSpace_escape_cons (by decide) hc) ihv
  | membersNil hs => exact .membersNil (skipSpace_escape_cons (by decide) hs)
  | membersCons hs _ _ ihm ihms =>
    exact .membersCons (skipSpace_escape_cons (by decide) hs) ihm ihms

/-- A document reads the same with its HTML escaped, but for the spelling of its strings. -/
theorem readDocument_htmlEscape {text : String} {node : Node}
    (h : readDocument (asBytes text) = some node) :
    readDocument (asBytes (htmlEscape text)) = some (escapeNode node) := by
  obtain ⟨rest, hd, hspace⟩ := readDocument_iff.mp h
  refine readDocument_iff.mpr ⟨escapeRunes rest, ?_, ?_⟩
  · rw [runes_htmlEscape]
    exact derives_escape hd
  · rw [skipSpace_escape, hspace]
    rfl

end QCap.HtmlEscape
