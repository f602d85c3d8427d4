import QCap.JsonReader

/-!
# The grammar that the reader accepts

One rule for each way in which a text goes on. The reader returns what can be derived, and its
fuel is enough for every derivation, so facts about documents are proved by induction on the
rules.
-/
namespace QCap.JsonGrammar

open QCap.Text QCap.JsonReader

/-- What a stretch of text stands for. The items and members are those that follow another one,
with the closing bracket. -/
inductive Form where
  | value (v : Node)
  | items (vs : List Node)
  | member (m : List Piece × Node)
  | members (ms : List (List Piece × Node))

/-- `Derives rs form rest`: the text up to `rest` is a form. -/
inductive Derives : List Rune → Form → List Rune → Prop where
  | string {rs body rest : List Rune} {ps : List Piece} : skipSpace rs = some '"' :: body →
      readPieces body = some (ps, rest) → Derives rs (.value (.string ps)) rest
  | number {rs tail rest : List Rune} {c : Char} {node : Node} : skipSpace rs = some c :: tail →
      isNumberChar c = true → readNumber (some c :: tail) = some (node, rest) →
      Derives rs (.value node) rest
  | word {rs rest : List Rune} {node : Node} : readWord (skipSpace rs) = some (node, rest) →
      Derives rs (.value node) rest
  | arrayNil {rs tail rest : List Rune} : skipSpace rs = some '[' :: tail →
      skipSpace tail = some ']' :: rest → Derives rs (.value (.array [])) rest
  | array {rs tail after rest : List Rune} {v : Node} {vs : List Node} :
      skipSpace rs = some '[' :: tail → Derives tail (.value v) after →
      Derives after (.items vs) rest → Derives rs (.value (.array (v :: vs))) rest
  | objectNil {rs tail rest : List Rune} : skipSpace rs = some '\x7b' :: tail →
      skipSpace tail = some '\x7d' :: rest → Derives rs (.value (.object [])) rest
  | object {rs tail after rest : List Rune} {m : List Piece × Node}
      {ms : List (List Piece × Node)} : skipSpace rs = some '\x7b' :: tail →
      Derives tail (.member m) after → Derives after (.members ms) rest →
      Derives rs (.value (.object (m :: ms))) rest
  | itemsNil {rs rest : List Rune} : skipSpace rs = some ']' :: rest → Derives rs (.items []) rest
  | itemsCons {rs tail after rest : List Rune} {v : Node} {vs : List Node} :
      skipSpace rs = some ',' :: tail → Derives tail (.value v) after →
      Derives after (.items vs) rest → Derives rs (.items (v :: vs)) rest
  | member {rs body after tail rest : List Rune} {name : List Piece} {v : Node} :
      skipSpace rs = some '"' :: body → readPieces body = some (name, after) →
      skipSpace after = some ':' :: tail → Derives tail (.value v) rest →
      Derives rs (.member (name, v)) rest
  | membersNil {rs rest : List Rune} : skipSpace rs = some '\x7d' :: rest →
      Derives rs (.members []) rest
  | membersCons {rs tail after rest : List Rune} {m : List Piece × Node}
      {ms : List (List Piece × Node)} : skipSpace rs = some ',' :: tail →
      Derives tail (.member m) after → Derives after (.members ms) rest →
      Derives rs (.members (m :: ms)) rest

def Reads (n : ℕ) (rs : List Rune) (rest : List Rune) : Form → Prop
  | .value v => readValue n rs = some (v, rest)
  | .items vs => readItems n rs = some (vs, rest)
  | .member m => readMember n rs = some (m, rest)
  | .members ms => readMembers n rs = some (ms, rest)

variable {n : ℕ} {rs rest : List Rune} {node : Node}

def Sound (n : ℕ) : Prop := ∀ rs rest form, Reads n rs rest form → Derives rs form rest

theorem derives_skip {form : Form} (h : Derives (skipSpace rs) form rest) :
    Derives rs form rest := by
  have hskip : skipSpace (skipSpace rs) = skipSpace rs := by
    simp only [skipSpace, List.dropWhile_idempotent]
  cases h with
  | string h hp => exact .string (hskip.symm.trans h) hp
  | number h hc hn => exact .number (hskip.symm.trans h) hc hn
  | word h => exact .word (hskip ▸ h)
  | arrayNil h ht => exact .arrayNil (hskip.symm.trans h) ht
  | array h hv hvs => exact .array (hskip.symm.trans h) hv hvs
  | objectNil h ht => exact .objectNil (hskip.symm.trans h) ht
  | object h hm hms => exact .object (hskip.symm.trans h) hm hms
  | itemsNil h => exact .itemsNil (hskip.symm.trans h)
  | itemsCons h hv hvs => exact .itemsCons (hskip.symm.trans h) hv hvs
  | member h hp hc hv => exact .member (hskip.symm.trans h) hp hc hv
  | membersNil h => exact .membersNil (hskip.symm.trans h)
  | membersCons h hm hms => exact .membersCons (hskip.symm.trans h) hm hms

theorem readValue_derives (ih : Sound n) (h : readValue (n + 1) rs = some (node, rest)) :
    Derives rs (.value node) rest := by
  rw [readValue] at h
  split at h
  · rename_i c tail hs
    by_cases hq : c = '"'
    · rw [if_pos hq] at h
      obtain ⟨⟨ps, after⟩, hp, he⟩ := Option.map_eq_some_iff.mp h
      cases he
      exact .string (hq ▸ hs) hp
    rw [if_neg hq] at h
    by_cases ha : c = '['
    · rw [if_pos ha] at h
      subst ha
      split at h
      · rename_i close after hclose
        cases h
        exact .arrayNil hs hclose
      · simp only [bind, pure, Option.bind_eq_some_iff] at h
        obtain ⟨⟨v, after⟩, hv, ⟨vs, rest'⟩, hvs, he⟩ := h
        cases he
        exact .array hs (derives_skip (ih _ _ (.value v) hv)) (ih _ _ (.items vs) hvs)
    rw [if_neg ha] at h
    by_cases ho : c = '\x7b'
    · rw [if_pos ho] at h
      subst ho
      split at h
      · rename_i close after hclose
        cases h
        exact .objectNil hs hclose
      · simp only [bind, pure, Option.bind_eq_some_iff] at h
        obtain ⟨⟨m, after⟩, hm, ⟨ms, rest'⟩, hms, he⟩ := h
        cases he
        exact .object hs (derives_skip (ih _ _ (.member m) hm)) (ih _ _ (.members ms) hms)
    rw [if_neg ho] at h
    by_cases hn : isNumberChar c = true
    · rw [if_pos hn] at h
      exact .number hs hn h
    · rw [if_neg hn, ← hs] at h
      exact .word h
  · cases h

theorem readItems_derives (ih : Sound n) {vs : List Node}
    (h : readItems (n + 1) rs = some (vs, rest)) : Derives rs (.items vs) rest := by
  rw [readItems] at h
  split at h
  · rename_i tail hs
    cases h
    exact .itemsNil hs
  · rename_i tail hs
    simp only [bind, pure, Option.bind_eq_some_iff] at h
    obtain ⟨⟨v, after⟩, hv, ⟨vs', rest'⟩, hvs, he⟩ := h
    cases he
    exact .itemsCons hs (ih _ _ (.value v) hv) (ih _ _ (.items vs') hvs)
  · cases h

theorem readMember_derives (ih : Sound n) {m : List Piece × Node}
    (h : readMember (n + 1) rs = some (m, rest)) : Derives rs (.member m) rest := by
  rw [readMember] at h
  split at h
  · rename_i body hs
    simp only [bind, pure, Option.bind_eq_some_iff] at h
    obtain ⟨⟨name, after⟩, hp, h⟩ := h
    split at h
    · rename_i tail hc
      obtain ⟨⟨v, rest'⟩, hv, he⟩ := Option.bind_eq_some_iff.mp h
      cases he
      exact .member hs hp hc (ih _ _ (.value v) hv)
    · cases h
  · cases h

theorem readMembers_derives (ih : Sound n) {ms : List (List Piece × Node)}
    (h : readMembers (n + 1) rs = some (ms, rest)) : Derives rs (.members ms) rest := by
  rw [readMembers] at h
  split at h
  · rename_i tail hs
    cases h
    exact .membersNil hs
  · rename_i tail hs
    simp only [bind, pure, Option.bind_eq_some_iff] at h
    obtain ⟨⟨m, after⟩, hm, ⟨ms', rest'⟩, hms, he⟩ := h
    cases he
    exact .membersCons hs (ih _ _ (.member m) hm) (ih _ _ (.members ms') hms)
  · cases h

theorem sound (n : ℕ) : Sound n := by
  induction n with
  | zero =>
    intro rs rest form h
    cases form with
    | value v => simp [Reads, readValue] at h
    | items vs => simp [Reads, readItems] at h
    | member m => simp [Reads, readMember] at h
    | members ms => simp [Reads, readMembers] at h
  | succ n ih =>
    intro rs rest form h
    cases form with
    | value v => exact readValue_derives ih h
    | items vs => exact readItems_derives ih h
    | member m => exact readMember_derives ih h
    | members ms => exact readMembers_derives ih h

theorem length_skipSpace (rs : List Rune) : (skipSpace rs).length ≤ rs.length :=
  (List.dropWhile_sublist _).length_le

theorem length_tail {c : Rune} {tail : List Rune} (h : skipSpace rs = c :: tail) :
    tail.length < rs.length := by
  have hle := length_skipSpace rs
  rw [h, List.length_cons] at hle
  omega

theorem length_readPieces {ps : List Piece} (h : readPieces rs = some (ps, rest)) :
    rest.length < rs.length := by
  have hadd : ∀ {p : Piece} {read : Option (List Piece × List Rune)} {ps : List Piece},
      addPiece p read = some (ps, rest) → ∃ ps', read = some (ps', rest) := by
    intro p read ps h
    obtain ⟨⟨ps', rest'⟩, hread, he⟩ := Option.map_eq_some_iff.mp h
    cases he
    exact ⟨ps', hread⟩
  fun_induction readPieces rs generalizing ps with
  | case1 => cases h
  | case2 rs => cases h; simp
  | case3 a b c d rs ih =>
    obtain ⟨u, -, h⟩ := Option.bind_eq_some_iff.mp h
    obtain ⟨ps', h⟩ := hadd h
    have hlt := ih h
    simp only [List.length_cons]
    omega
  | case4 c rs hne ih =>
    obtain ⟨e, -, h⟩ := Option.bind_eq_some_iff.mp h
    obtain ⟨ps', h⟩ := hadd h
    have hlt := ih h
    simp only [List.length_cons]
    omega
  | case5 => cases h
  | case6 => cases h
  | case7 c rs _ _ _ _ _ ih =>
    obtain ⟨ps', h⟩ := hadd h
    have hlt := ih h
    simp only [List.length_cons]
    omega
  | case8 rs ih =>
    obtain ⟨ps', h⟩ := hadd h
    have hlt := ih h
    simp only [List.length_cons]
    omega

theorem length_readNumber {c : Char} {tail : List Rune} (hc : isNumberChar c = true)
    (h : readNumber (some c :: tail) = some (node, rest)) : rest.length ≤ tail.length := by
  unfold readNumber at h
  dsimp only at h
  rw [Option.ite_none_right_eq_some] at h
  obtain ⟨-, he⟩ := h
  cases he
  rw [List.dropWhile_cons_of_pos (by simpa using hc)]
  exact (List.dropWhile_sublist _).length_le

theorem readWord_some (h : readWord rs = some (node, rest)) :
    ∃ c tail, rs = some c :: tail ∧ c ∈ ['n', 't', 'f'] ∧ rest.length < rs.length := by
  unfold readWord at h
  split at h
  · cases h
    exact ⟨_, _, rfl, by decide, by simp only [List.length_cons]; omega⟩
  · cases h
    exact ⟨_, _, rfl, by decide, by simp only [List.length_cons]; omega⟩
  · cases h
    exact ⟨_, _, rfl, by decide, by simp only [List.length_cons]; omega⟩
  · cases h

structure Complete (rs : List Rune) (form : Form) (rest : List Rune) : Prop where
  shorter : rest.length < rs.length
  reads : ∀ n, rs.length ≤ n + rest.length → Reads n rs rest form

theorem complete_step {form : Form} (hl : rest.length < rs.length)
    (h : ∀ n, rs.length ≤ n + 1 + rest.length → Reads (n + 1) rs rest form) :
    Complete rs form rest := by
  refine ⟨hl, ?_⟩
  intro n hn
  obtain ⟨n, rfl⟩ := Nat.exists_eq_add_of_le' (by omega : 1 ≤ n)
  exact h n hn

theorem readValue_start {c : Char} {tail : List Rune} (h : skipSpace rs = some c :: tail) :
    readValue n rs = readValue n (some c :: tail) := by
  rw [← readValue_skip, h]

theorem derives_complete {form : Form} (h : Derives rs form rest) : Complete rs form rest := by
  induction h with
  | @string rs body rest ps hs hp =>
    have hbody := length_tail hs
    have hrest := length_readPieces hp
    apply complete_step (by omega)
    intro n _
    rw [Reads, readValue, hs]
    simp only [if_true, hp]
    rfl
  | @number rs tail rest c node hs hc hn =>
    have htail := length_tail hs
    have hrest := length_readNumber hc hn
    apply complete_step (by omega)
    intro n _
    rw [Reads, readValue, hs]
    simp only [if_neg (isNumberChar_ne hc (d := '"') (by decide)),
      if_neg (isNumberChar_ne hc (d := '[') (by decide)),
      if_neg (isNumberChar_ne hc (d := '\x7b') (by decide)), hc, if_true]
    exact hn
  | @word rs rest node hw =>
    obtain ⟨c, tail, hs, hc, hl⟩ := readWord_some hw
    have hle := length_skipSpace rs
    apply complete_step (by omega)
    intro n _
    have hall : ∀ d ∈ ['n', 't', 'f'],
        d ≠ '"' ∧ d ≠ '[' ∧ d ≠ '\x7b' ∧ isNumberChar d = false := by
      intro d hd
      rcases hd with _ | ⟨_, _ | ⟨_, _ | ⟨_, hd⟩⟩⟩
      · decide
      · decide
      · decide
      · cases hd
    have hne := hall c hc
    rw [Reads, readValue, hs]
    simp only [if_neg hne.1, if_neg hne.2.1, if_neg hne.2.2.1, hne.2.2.2, Bool.false_eq_true,
      if_false]
    rw [← hs]
    exact hw
  | @arrayNil rs tail rest hs hc =>
    have htail := length_tail hs
    have hrest := length_tail hc
    apply complete_step (by omega)
    intro n _
    rw [Reads, readValue, hs]
    simp only [if_neg (show '[' ≠ '"' by decide), if_true, hc]
  | @array rs tail after rest v vs hs hv hvs ihv ihvs =>
    have htail := length_tail hs
    obtain ⟨hlv, hrv⟩ := ihv
    obtain ⟨hlvs, hrvs⟩ := ihvs
    apply complete_step (by omega)
    intro n hn
    rw [Reads, readValue_start hs]
    exact readValue_array (hrv n (by omega)) (hrvs n (by omega))
  | @objectNil rs tail rest hs hc =>
    have htail := length_tail hs
    have hrest := length_tail hc
    apply complete_step (by omega)
    intro n _
    rw [Reads, readValue, hs]
    simp only [if_neg (show '\x7b' ≠ '"' by decide), if_neg (show '\x7b' ≠ '[' by decide), if_true,
      hc]
  | @object rs tail after rest m ms hs hm hms ihm ihms =>
    have htail := length_tail hs
    obtain ⟨hlm, hrm⟩ := ihm
    obtain ⟨hlms, hrms⟩ := ihms
    apply complete_step (by omega)
    intro n hn
    rw [Reads, readValue_start hs]
    exact readValue_object (hrm n (by omega)) (hrms n (by omega))
  | @itemsNil rs rest hs =>
    apply complete_step (length_tail hs)
    intro n _
    rw [Reads, readItems, hs]
    rfl
  | @itemsCons rs tail after rest v vs hs hv hvs ihv ihvs =>
    have htail := length_tail hs
    obtain ⟨hlv, hrv⟩ := ihv
    obtain ⟨hlvs, hrvs⟩ := ihvs
    apply complete_step (by omega)
    intro n hn
    have hv : readValue n tail = some (v, after) := hrv n (by omega)
    have hvs : readItems n after = some (vs, rest) := hrvs n (by omega)
    rw [Reads, readItems, hs]
    simp only [hv, hvs, Option.bind_eq_bind, Option.bind_some]
    rfl
  | @member rs body after tail rest name v hs hp hc hv ihv =>
    have hbody := length_tail hs
    have hafter := length_readPieces hp
    have htail := length_tail hc
    obtain ⟨hlv, hrv⟩ := ihv
    apply complete_step (by omega)
    intro n hn
    have hv : readValue n tail = some (v, rest) := hrv n (by omega)
    rw [Reads, readMember, hs]
    simp only [hp, Option.bind_eq_bind, Option.bind_some, hc, hv]
    rfl
  | @membersNil rs rest hs =>
    apply complete_step (length_tail hs)
    intro n _
    rw [Reads, readMembers, hs]
    rfl
  | @membersCons rs tail after rest m ms hs hm hms ihm ihms =>
    have htail := length_tail hs
    obtain ⟨hlm, hrm⟩ := ihm
    obtain ⟨hlms, hrms⟩ := ihms
    apply complete_step (by omega)
    intro n hn
    have hm : readMember n tail = some (m, after) := hrm n (by omega)
    have hms : readMembers n after = some (ms, rest) := hrms n (by omega)
    rw [Reads, readMembers, hs]
    simp only [hm, hms, Option.bind_eq_bind, Option.bind_some]
    rfl

/-- A document is one value, with white space around it. -/
theorem readDocument_iff {document : Bytes} : readDocument document = some node ↔
    ∃ rest, Derives (decodeRunes document) (.value node) rest ∧ skipSpace rest = [] := by
  constructor
  · intro h
    simp only [readDocument, bind, Option.bind_eq_some_iff] at h
    obtain ⟨⟨value, rest⟩, hvalue, h⟩ := h
    rw [Option.ite_none_right_eq_some] at h
    obtain ⟨hspace, he⟩ := h
    cases he
    exact ⟨rest, sound _ _ _ (.value value) hvalue, hspace⟩
  · rintro ⟨rest, hd, hspace⟩
    have hread : readValue ((decodeRunes document).length + 1) (decodeRunes document) =
        some (node, rest) := (derives_complete hd).reads _ (by omega)
    rw [readDocument]
    simp only [hread, Option.bind_eq_bind, Option.bind_some, hspace, if_true]

end QCap.JsonGrammar
