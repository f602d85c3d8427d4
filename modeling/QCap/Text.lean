import Mathlib.Data.List.Basic
import Mathlib.Tactic.IntervalCases

/-!
# Text and byte strings

Rust `str`/Go `string` values are Lean strings and byte slices are lists of bytes.
`asBytes` is the UTF-8 view that every signature, hash and AEAD call is applied to.
Splitting, prefix stripping and hex follow the library functions byte for byte.
-/
namespace QCap.Text

abbrev Bytes := List UInt8

/-- `[u8; n]`: a byte string that carries its length. -/
abbrev FixedBytes (n : ℕ) := { b : Bytes // b.length = n }

def asBytes (s : String) : Bytes := s.toByteArray.data.toList

@[simp] theorem asBytes_append (s t : String) : asBytes (s ++ t) = asBytes s ++ asBytes t := by
  simp [asBytes, String.toByteArray_append, ByteArray.data_append]

theorem asBytes_injective {s t : String} (h : asBytes s = asBytes t) : s = t := by
  apply String.toByteArray_inj.mp
  exact ByteArray.ext (Array.toList_inj.mp h)

theorem fromUTF8?_asBytes (s : String) :
    String.fromUTF8? ⟨(asBytes s).toArray⟩ = some s := by
  have hs : (⟨(asBytes s).toArray⟩ : ByteArray) = s.toByteArray := by simp [asBytes]
  rw [hs, String.fromUTF8?, dif_pos s.isValidUTF8]
  rfl

theorem asBytes_eq_flatMap (s : String) :
    asBytes s = s.toList.flatMap String.utf8EncodeChar := by
  rw [asBytes, ← String.utf8Encode_toList]
  simp [List.utf8Encode]

theorem length_asBytes (s : String) : (asBytes s).length = (s.toList.map Char.utf8Size).sum := by
  rw [asBytes_eq_flatMap, List.length_flatMap]
  simp [String.length_utf8EncodeChar]

theorem ascii_mem_utf8EncodeChar {b : UInt8} {c : Char} (hb : b.toNat < 128)
    (h : b ∈ String.utf8EncodeChar c) : c.toNat = b.toNat := by
  unfold String.utf8EncodeChar at h
  simp only at h
  split at h
  · rename_i hc
    have hle : c.toNat ≤ 127 := hc
    have he := congrArg UInt8.toNat (List.mem_singleton.mp h)
    simp at he
    exact (he.trans (by omega)).symm
  · exfalso
    split at h
    · simp only [List.mem_cons, List.not_mem_nil, or_false] at h
      rcases h with h | h <;> have he := congrArg UInt8.toNat h <;> simp at he <;> omega
    · split at h
      · simp only [List.mem_cons, List.not_mem_nil, or_false] at h
        rcases h with h | h | h <;> have he := congrArg UInt8.toNat h <;> simp at he <;> omega
      · simp only [List.mem_cons, List.not_mem_nil, or_false] at h
        rcases h with h | h | h | h <;> have he := congrArg UInt8.toNat h <;> simp at he <;> omega

theorem ascii_mem_asBytes {s : String} {b : UInt8} (hb : b.toNat < 128) (h : b ∈ asBytes s) :
    ∃ c ∈ s.toList, c.toNat = b.toNat := by
  rw [asBytes_eq_flatMap] at h
  obtain ⟨c, hc, hm⟩ := List.mem_flatMap.mp h
  exact ⟨c, hc, ascii_mem_utf8EncodeChar hb hm⟩

theorem zero_not_mem_asBytes {s : String} (h : '\x00' ∉ s.toList) : (0 : UInt8) ∉ asBytes s := by
  intro hm
  obtain ⟨c, hc, hz⟩ := ascii_mem_asBytes (by decide) hm
  exact h (Char.ext (UInt32.toNat_inj.mp (show c.toNat = ('\x00').toNat from hz)) ▸ hc)

def startsWith (s p : String) : Bool := p.toList.isPrefixOf s.toList

def endsWith (s p : String) : Bool := p.toList.isSuffixOf s.toList

def stripPrefix (s p : String) : Option String :=
  if startsWith s p then some (String.ofList (s.toList.drop p.toList.length)) else none

def stripSuffix (s p : String) : Option String :=
  if endsWith s p then some (String.ofList (s.toList.take (s.toList.length - p.toList.length)))
  else none

/-- `str::split` on one character: every delimiter separates, empty pieces are kept. -/
def splitOn (s : String) (d : Char) : List String := (s.toList.splitOn d).map String.ofList

/-- `[String]::join` with a one-character separator. -/
def joinWith (d : Char) (parts : List String) : String :=
  String.ofList ([d].intercalate (parts.map String.toList))

/-- `str::replace` of one character by another. -/
def replaceChar (s : String) (old new : Char) : String :=
  String.ofList (s.toList.map fun c => if c = old then new else c)

/-- The characters of a string avoid `d`: a value that a delimited encoding keeps whole. -/
def Free (d : Char) (s : String) : Prop := d ∉ s.toList

instance (d : Char) (s : String) : Decidable (Free d s) :=
  inferInstanceAs (Decidable (¬ _ ∈ _))

theorem free_append {d : Char} {s t : String} :
    Free d (s ++ t) ↔ Free d s ∧ Free d t := by
  simp [Free, String.toList_append, not_or]

theorem startsWith_append (p t : String) : startsWith (p ++ t) p = true := by
  simp [startsWith, String.toList_append]

theorem stripPrefix_append (p t : String) : stripPrefix (p ++ t) p = some t := by
  simp [stripPrefix, startsWith_append, String.toList_append]

theorem stripPrefix_eq_some {s p t : String} : stripPrefix s p = some t ↔ s = p ++ t := by
  constructor
  · intro h
    unfold stripPrefix at h
    split at h
    · rename_i hp
      obtain ⟨r, hr⟩ := List.isPrefixOf_iff_prefix.mp hp
      rw [Option.some.injEq] at h
      rw [← String.toList_inj, String.toList_append, ← h, ← hr]
      simp
    · cases h
  · rintro rfl
    exact stripPrefix_append p t

theorem startsWith_iff {s p : String} : startsWith s p = true ↔ ∃ t, s = p ++ t := by
  constructor
  · intro h
    obtain ⟨r, hr⟩ := List.isPrefixOf_iff_prefix.mp h
    exact ⟨String.ofList r, by rw [← String.toList_inj]; simp [String.toList_append, hr]⟩
  · rintro ⟨t, rfl⟩
    exact startsWith_append p t

theorem endsWith_singleton {s : String} {c : Char} (h : endsWith s (String.singleton c) = true) :
    s.toList.getLast? = some c := by
  obtain ⟨t, ht⟩ := List.isSuffixOf_iff_suffix.mp h
  rw [← ht]
  simp

theorem splitOn_joinWith {d : Char} {parts : List String} (hne : parts ≠ [])
    (hfree : ∀ p ∈ parts, Free d p) : splitOn (joinWith d parts) d = parts := by
  have hs : List.splitOn d ([d].intercalate (parts.map String.toList)) =
      parts.map String.toList := by
    apply List.splitOn_intercalate
    · intro l hl
      obtain ⟨p, hp, rfl⟩ := List.mem_map.mp hl
      exact hfree p hp
    · simpa using hne
  simp [splitOn, joinWith, hs, Function.comp_def]

theorem joinWith_splitOn (s : String) (d : Char) : joinWith d (splitOn s d) = s := by
  simp [joinWith, splitOn, Function.comp_def, List.intercalate_splitOn]

theorem splitOn_ne_nil (s : String) (d : Char) : splitOn s d ≠ [] := by
  simp [splitOn]

theorem splitOn_append (s t : String) (d : Char) :
    splitOn (s ++ String.singleton d ++ t) d = splitOn s d ++ splitOn t d := by
  simp only [splitOn, String.toList_append, String.toList_singleton, List.append_assoc,
    List.singleton_append]
  rw [List.splitOn_append_cons_self, List.map_append]

theorem splitOn_of_free {s : String} {d : Char} (h : Free d s) : splitOn s d = [s] := by
  simp [splitOn, List.splitOn_eq_singleton h]

theorem splitOn_free {s : String} {d : Char} : ∀ p ∈ splitOn s d, Free d p := by
  have hlist : ∀ cs : List Char, ∀ l ∈ cs.splitOn d, d ∉ l := by
    intro cs
    induction cs with
    | nil => simp
    | cons c cs ih =>
      intro l hl
      rw [List.splitOn_cons_eq_if_modifyHead] at hl
      split at hl
      · rcases List.mem_cons.mp hl with rfl | hl
        · simp
        · exact ih l hl
      · rename_i hc
        obtain ⟨first, rest, hsplit⟩ := List.exists_cons_of_ne_nil (List.splitOn_ne_nil d cs)
        rw [hsplit] at hl ih
        rcases List.mem_cons.mp hl with rfl | hl
        · have hd : d ≠ c := fun he => hc (by simp [he])
          simp [hd, ih first (by simp)]
        · exact ih l (List.mem_cons_of_mem _ hl)
  intro p hp
  obtain ⟨l, hl, rfl⟩ := List.mem_map.mp hp
  simpa [Free] using hlist _ l hl

theorem joinWith_singleton (d : Char) (p : String) : joinWith d [p] = p := by
  simp [joinWith]

theorem joinWith_cons_cons (d : Char) (p q : String) (ps : List String) :
    joinWith d (p :: q :: ps) = p ++ String.singleton d ++ joinWith d (q :: ps) := by
  rw [← String.toList_inj]
  simp [joinWith, List.intercalate, String.toList_append]

theorem toList_joinWith_cons (d : Char) (p : String) (ps : List String) :
    (joinWith d (p :: ps)).toList = p.toList ++ ps.flatMap fun q => d :: q.toList := by
  induction ps generalizing p with
  | nil => simp [joinWith]
  | cons q ps ih => simp [joinWith_cons_cons, ih, String.toList_append]

theorem mem_joinWith {d c : Char} {p : String} {parts : List String} (hp : p ∈ parts)
    (hc : c ∈ p.toList) : c ∈ (joinWith d parts).toList := by
  cases parts with
  | nil => cases hp
  | cons first rest =>
    rw [toList_joinWith_cons]
    rcases List.mem_cons.mp hp with rfl | hp
    · exact List.mem_append_left _ hc
    · exact List.mem_append_right _ (List.mem_flatMap.mpr ⟨p, hp, List.mem_cons_of_mem _ hc⟩)

theorem mem_splitOn {s p : String} {d c : Char} (hp : p ∈ splitOn s d) (hc : c ∈ p.toList) :
    c ∈ s.toList := by
  rw [← joinWith_splitOn s d]
  exact mem_joinWith hp hc

theorem cons_split_unique {α : Type*} {d : α} {a b s t : List α} (ha : d ∉ a) (hb : d ∉ b)
    (h : a ++ d :: s = b ++ d :: t) : a = b ∧ s = t := by
  induction a generalizing b with
  | nil =>
    cases b with
    | nil => exact ⟨rfl, List.cons.inj h |>.2⟩
    | cons y b => exact absurd (by simp [(List.cons.inj h).1]) hb
  | cons x a ih =>
    cases b with
    | nil => exact absurd (by simp [(List.cons.inj h).1]) ha
    | cons y b =>
      obtain ⟨rfl, hs⟩ := List.cons.inj h
      have := ih (fun hm => ha (List.mem_cons_of_mem _ hm))
        (fun hm => hb (List.mem_cons_of_mem _ hm)) hs
      exact ⟨by rw [this.1], this.2⟩

theorem headed_split_unique {α : Type*} {d : α} {a b s t : List α} (ha : d ∉ a) (hb : d ∉ b)
    (hs : s = [] ∨ ∃ s', s = d :: s') (ht : t = [] ∨ ∃ t', t = d :: t')
    (h : a ++ s = b ++ t) : a = b ∧ s = t := by
  rcases hs with rfl | ⟨s, rfl⟩ <;> rcases ht with rfl | ⟨t, rfl⟩
  · simpa using h
  · rw [List.append_nil] at h
    exact absurd (h ▸ by simp) ha
  · rw [List.append_nil] at h
    exact absurd (h ▸ by simp) hb
  · obtain ⟨hab, hst⟩ := cons_split_unique ha hb h
    exact ⟨hab, by rw [hst]⟩

theorem append_delimiter_inj {d : Char} {a b s t : String} (ha : Free d a) (hb : Free d b)
    (h : a ++ String.singleton d ++ s = b ++ String.singleton d ++ t) : a = b ∧ s = t := by
  have hl := congrArg String.toList h
  simp only [String.toList_append, String.toList_singleton, List.append_assoc,
    List.singleton_append] at hl
  obtain ⟨h1, h2⟩ := cons_split_unique ha hb hl
  exact ⟨String.toList_inj.mp h1, String.toList_inj.mp h2⟩

theorem append_delimiter_inj_right {d : Char} {a b s t : String} (hs : Free d s) (ht : Free d t)
    (h : a ++ String.singleton d ++ s = b ++ String.singleton d ++ t) : a = b ∧ s = t := by
  have hl := congrArg (fun x => x.toList.reverse) h
  simp only [String.toList_append, String.toList_singleton, List.append_assoc,
    List.reverse_append, List.reverse_cons, List.nil_append, List.cons_append] at hl
  obtain ⟨h1, h2⟩ := cons_split_unique (by simpa [Free] using hs) (by simpa [Free] using ht) hl
  exact ⟨String.toList_inj.mp (List.reverse_inj.mp h2),
    String.toList_inj.mp (List.reverse_inj.mp h1)⟩

/-- `char::is_whitespace` and `unicode.IsSpace`. -/
def isWhitespace (c : Char) : Bool :=
  (9 ≤ c.toNat && c.toNat ≤ 13) || c.toNat = 0x20 || c.toNat = 0x85 || c.toNat = 0xA0 ||
    c.toNat = 0x1680 || (0x2000 ≤ c.toNat && c.toNat ≤ 0x200A) || c.toNat = 0x2028 ||
    c.toNat = 0x2029 || c.toNat = 0x202F || c.toNat = 0x205F || c.toNat = 0x3000

/-- `str::trim` and `strings.TrimSpace`. -/
def trim (s : String) : String :=
  String.ofList ((s.toList.dropWhile isWhitespace).reverse.dropWhile isWhitespace).reverse

theorem trim_eq_self {s : String} (h : ∀ c ∈ s.toList, isWhitespace c = false) : trim s = s := by
  have hdrop : ∀ cs : List Char, (∀ c ∈ cs, isWhitespace c = false) →
      cs.dropWhile isWhitespace = cs := by
    intro cs hcs
    cases cs with
    | nil => rfl
    | cons c cs => exact List.dropWhile_cons_of_neg (by simp [hcs c])
  rw [trim, hdrop _ h, hdrop _ (fun c hc => h c (List.mem_reverse.mp hc)), List.reverse_reverse,
    String.ofList_toList]

def hexDigit (n : ℕ) : Char := Char.ofNat (if n < 10 then 48 + n else 87 + n)

/-- Both letter cases are digits to `hex::decode` and to Go's `hex.DecodeString`. -/
def hexValue (c : Char) : Option ℕ :=
  if '0' ≤ c ∧ c ≤ '9' then some (c.toNat - 48)
  else if 'a' ≤ c ∧ c ≤ 'f' then some (c.toNat - 87)
  else if 'A' ≤ c ∧ c ≤ 'F' then some (c.toNat - 55)
  else none

def hexChars : Bytes → List Char
  | [] => []
  | b :: bs => hexDigit (b.toNat / 16) :: hexDigit (b.toNat % 16) :: hexChars bs

/-- `hex::encode`: lowercase, two digits a byte. -/
def hexEncode (b : Bytes) : String := String.ofList (hexChars b)

def hexDecodeChars : List Char → Option Bytes
  | [] => some []
  | [_] => none
  | hi :: lo :: rest =>
    match hexValue hi, hexValue lo with
    | some x, some y => (hexDecodeChars rest).map (UInt8.ofNat (16 * x + y) :: ·)
    | _, _ => none

def hexDecode (s : String) : Option Bytes := hexDecodeChars s.toList

theorem hexValue_hexDigit {n : ℕ} (h : n < 16) : hexValue (hexDigit n) = some n := by
  interval_cases n <;> decide

theorem hexDecodeChars_hexChars (b : Bytes) : hexDecodeChars (hexChars b) = some b := by
  induction b with
  | nil => rfl
  | cons x b ih =>
    have hx := x.toNat_lt
    rw [hexChars, hexDecodeChars, hexValue_hexDigit (by omega), hexValue_hexDigit (by omega)]
    simp only [ih, Option.map_some]
    rw [show 16 * (x.toNat / 16) + x.toNat % 16 = x.toNat by omega]
    simp

@[simp] theorem hexDecode_hexEncode (b : Bytes) : hexDecode (hexEncode b) = some b := by
  simp [hexDecode, hexEncode, hexDecodeChars_hexChars]

theorem hexEncode_injective {a b : Bytes} (h : hexEncode a = hexEncode b) : a = b := by
  have ha := hexDecode_hexEncode a
  rw [h, hexDecode_hexEncode] at ha
  exact (Option.some.inj ha).symm

theorem hexValue_toUpper {n : ℕ} (h : n < 16) : hexValue (hexDigit n).toUpper = some n := by
  interval_cases n <;> decide

theorem hexDecode_toUpper (b : Bytes) :
    hexDecode (String.ofList ((hexEncode b).toList.map Char.toUpper)) = some b := by
  simp only [hexDecode, hexEncode, String.toList_ofList]
  induction b with
  | nil => rfl
  | cons x b ih =>
    have hx := x.toNat_lt
    rw [hexChars, List.map_cons, List.map_cons, hexDecodeChars, hexValue_toUpper (by omega),
      hexValue_toUpper (by omega)]
    simp only [ih, Option.map_some]
    rw [show 16 * (x.toNat / 16) + x.toNat % 16 = x.toNat by omega]
    simp

def isLowerHex (c : Char) : Bool := ('0' ≤ c && c ≤ '9') || ('a' ≤ c && c ≤ 'f')

theorem hexDigit_isLowerHex {n : ℕ} (h : n < 16) : isLowerHex (hexDigit n) = true := by
  interval_cases n <;> decide

theorem hexEncode_forall {P : Char → Prop} (h : ∀ n < 16, P (hexDigit n)) (b : Bytes) :
    ∀ c ∈ (hexEncode b).toList, P c := by
  simp only [hexEncode, String.toList_ofList]
  induction b with
  | nil => simp [hexChars]
  | cons x b ih =>
    have hx := x.toNat_lt
    simp only [hexChars, List.mem_cons]
    rintro c (rfl | rfl | hc)
    · exact h _ (by omega)
    · exact h _ (by omega)
    · exact ih c hc

theorem hexEncode_isLowerHex (b : Bytes) : ∀ c ∈ (hexEncode b).toList, isLowerHex c = true :=
  hexEncode_forall (fun _ h => hexDigit_isLowerHex h) b

theorem hexEncode_length (b : Bytes) : (hexEncode b).toList.length = 2 * b.length := by
  simp only [hexEncode, String.toList_ofList]
  induction b with
  | nil => rfl
  | cons x b ih => simp only [hexChars, List.length_cons, ih]; omega

theorem length_asBytes_hexEncode (b : Bytes) : (asBytes (hexEncode b)).length = 2 * b.length := by
  have hone : ∀ c ∈ (hexEncode b).toList, c.utf8Size = 1 :=
    hexEncode_forall (fun n hn => by interval_cases n <;> decide) b
  rw [length_asBytes, ← hexEncode_length, List.map_congr_left hone]
  simp

theorem trim_hexEncode (b : Bytes) : trim (hexEncode b) = hexEncode b :=
  trim_eq_self (hexEncode_forall (fun n hn => by interval_cases n <;> decide) b)

theorem hexEncode_free {d : Char} (hd : isLowerHex d = false) (b : Bytes) :
    Free d (hexEncode b) := by
  intro hm
  rw [hexEncode_isLowerHex b d hm] at hd
  cases hd

def digitsValue : ℕ → List Char → Option ℕ
  | acc, [] => some acc
  | acc, c :: cs =>
    if '0' ≤ c ∧ c ≤ '9' then digitsValue (10 * acc + (c.toNat - 48)) cs else none

def dropPlus : List Char → List Char
  | '+' :: cs => cs
  | cs => cs

/-- `str::parse::<u64>`: one optional `+`, at least one digit, no overflow. -/
def parseU64 (s : String) : Option ℕ :=
  match dropPlus s.toList with
  | [] => none
  | c :: cs => (digitsValue 0 (c :: cs)).filter (· < 2 ^ 64)

theorem digitsValue_digits {cs : List Char} {acc v : ℕ} (h : digitsValue acc cs = some v) :
    ∀ c ∈ cs, '0' ≤ c ∧ c ≤ '9' := by
  induction cs generalizing acc with
  | nil => simp
  | cons c cs ih =>
    rw [digitsValue] at h
    split at h
    · rename_i hc
      simpa [hc] using ih h
    · cases h

theorem mem_dropPlus {d : Char} {cs : List Char} (hd : d ≠ '+') (h : d ∈ cs) :
    d ∈ dropPlus cs := by
  unfold dropPlus
  split
  · simpa [hd] using h
  · exact h

theorem parseU64_free {d : Char} {s : String} {v : ℕ} (hp : d ≠ '+')
    (hd : ¬ ('0' ≤ d ∧ d ≤ '9')) (h : parseU64 s = some v) : Free d s := by
  intro hm
  have hm' := mem_dropPlus hp hm
  unfold parseU64 at h
  split at h
  · cases h
  · rename_i c cs hcs
    rw [hcs] at hm'
    exact hd (digitsValue_digits (Option.filter_eq_some_iff.mp h).1 d hm')

/-- `Box<dyn Error>`: a message of the program itself, or the library that reported it. -/
inductive Error where
  | message (text : String)
  | hex
  | json
  | zip
  | fileSystem
  | verifyingKey
  | number
  | argon2
  deriving DecidableEq, Repr

abbrev Result (α : Type*) := Except Error α

def ensure (condition : Prop) [Decidable condition] (text : String) : Result Unit :=
  if condition then .ok () else .error (.message text)

def okOr {α : Type*} (value : Option α) (e : Error) : Result α :=
  match value with
  | some a => .ok a
  | none => .error e

@[simp] theorem ensure_ok {condition : Prop} [Decidable condition] {text : String} {u : Unit} :
    ensure condition text = .ok u ↔ condition := by
  unfold ensure
  by_cases h : condition <;> simp [h]

@[simp] theorem okOr_ok {α : Type*} {value : Option α} {e : Error} {a : α} :
    okOr value e = .ok a ↔ value = some a := by
  cases value <;> simp [okOr]

@[simp] theorem okOr_some {α : Type*} (a : α) (e : Error) : okOr (some a) e = .ok a := rfl

/-- A sequence of fallible steps succeeds when each one does. -/
theorem bind_ok {ε α β : Type} {x : Except ε α} {f : α → Except ε β} {b : β} :
    (x >>= f) = .ok b ↔ ∃ a, x = .ok a ∧ f a = .ok b := by
  cases x with
  | error e => simp [bind, Except.bind]
  | ok a => simp [bind, Except.bind]

@[simp] theorem ok_bind {ε α β : Type} (a : α) (f : α → Except ε β) :
    ((.ok a : Except ε α) >>= f) = f a := rfl

@[simp] theorem error_bind {ε α β : Type} (e : ε) (f : α → Except ε β) :
    ((.error e : Except ε α) >>= f) = .error e := rfl

/-- `decode_32` and `decode_24`: hex text of a fixed number of bytes. -/
def decodeFixed (n : ℕ) (value label : String) : Result (FixedBytes n) :=
  match hexDecode value with
  | none => .error .hex
  | some b =>
    if h : b.length = n then .ok ⟨b, h⟩
    else .error (.message (label ++ " must be " ++ toString n ++ " bytes"))

theorem decodeFixed_hexEncode {n : ℕ} (b : FixedBytes n) (label : String) :
    decodeFixed n (hexEncode b.val) label = .ok b := by
  simp [decodeFixed, b.property]

theorem decodeFixed_ok {n : ℕ} {value label : String} {b : FixedBytes n}
    (h : decodeFixed n value label = .ok b) : hexDecode value = some b.val := by
  unfold decodeFixed at h
  split at h
  · cases h
  · rename_i c hc
    split at h
    · rw [hc, ← Except.ok.inj h]
    · cases h

example : hexDecode "0aFf" = some [10, 255] := by decide
example : parseU64 "+18446744073709551615" = some 18446744073709551615 := by decide

end QCap.Text
