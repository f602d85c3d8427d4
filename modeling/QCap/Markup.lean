import Mathlib.Data.List.Basic

/-!
# Tags and texts

A page as a list of tags, each with the text up to the next one, and the state machine that
finds them. Between tags and in quoted values there are character references.
-/
namespace QCap.Markup

structure Tag where
  name : List Char
  attributes : List (List Char × Option (List Char))
  text : List Char
  deriving DecidableEq

def escapeChar : Char → List Char
  | '<' => "&lt;".toList
  | '>' => "&gt;".toList
  | '&' => "&amp;".toList
  | '\'' => "&#39;".toList
  | '"' => "&#34;".toList
  | c => [c]

def escape (cs : List Char) : List Char := cs.flatMap escapeChar

def renderAttribute : List Char × Option (List Char) → List Char
  | (name, none) => ' ' :: name
  | (name, some value) => ' ' :: name ++ '=' :: '"' :: escape value ++ ['"']

def renderTag (t : Tag) : List Char :=
  '<' :: t.name ++ t.attributes.flatMap renderAttribute ++ '>' :: escape t.text

def render (tags : List Tag) : List Char := tags.flatMap renderTag

def unescape : List Char → List Char
  | '&' :: 'l' :: 't' :: ';' :: cs => '<' :: unescape cs
  | '&' :: 'g' :: 't' :: ';' :: cs => '>' :: unescape cs
  | '&' :: 'a' :: 'm' :: 'p' :: ';' :: cs => '&' :: unescape cs
  | '&' :: '#' :: '3' :: '9' :: ';' :: cs => '\'' :: unescape cs
  | '&' :: '#' :: '3' :: '4' :: ';' :: cs => '"' :: unescape cs
  | c :: cs => c :: unescape cs
  | [] => []

inductive State where
  | start
  | name (cs : List Char)
  | between (t : Tag)
  | attribute (t : Tag) (cs : List Char)
  | value (t : Tag) (name : List Char)
  | quoted (t : Tag) (name cs : List Char)
  | text (t : Tag) (cs : List Char)

def Tag.add (t : Tag) (name : List Char) (value : Option (List Char)) : Tag :=
  { t with attributes := t.attributes ++ [(name, value)] }

def step : State → Char → Option (List Tag × State)
  | .start, c => if c = '<' then some ([], .name []) else none
  | .name cs, c =>
    if c = ' ' then some ([], .between ⟨cs, [], []⟩)
    else if c = '>' then some ([], .text ⟨cs, [], []⟩ [])
    else some ([], .name (cs ++ [c]))
  | .between t, c =>
    if c = ' ' then some ([], .between t)
    else if c = '>' then some ([], .text t [])
    else some ([], .attribute t [c])
  | .attribute t cs, c =>
    if c = ' ' then some ([], .between (t.add cs none))
    else if c = '>' then some ([], .text (t.add cs none) [])
    else if c = '=' then some ([], .value t cs)
    else some ([], .attribute t (cs ++ [c]))
  | .value t name, c => if c = '"' then some ([], .quoted t name []) else none
  | .quoted t name cs, c =>
    if c = '"' then some ([], .between (t.add name (some (unescape cs))))
    else some ([], .quoted t name (cs ++ [c]))
  | .text t cs, c =>
    if c = '<' then some ([{ t with text := unescape cs }], .name [])
    else some ([], .text t (cs ++ [c]))

def run : State → List Char → Option (List Tag)
  | .text t cs, [] => some [{ t with text := unescape cs }]
  | _, [] => none
  | s, c :: cs =>
    match step s c with
    | some (out, s') => (run s' cs).map (out ++ ·)
    | none => none

def readTags (page : List Char) : Option (List Tag) := run .start page

variable {c : Char} {cs rest : List Char} {s s' : State} {t : Tag}

def special : List Char := ['<', '>', '&', '\'', '"']

theorem escapeChar_plain (h : c ∉ special) : escapeChar c = [c] := by
  unfold escapeChar
  split
  case h_6 => rfl
  all_goals exact absurd (by decide) h

theorem escape_plain (h : ∀ c ∈ cs, c ∉ special) : escape cs = cs := by
  induction cs with
  | nil => rfl
  | cons c cs ih =>
    rw [List.forall_mem_cons] at h
    rw [escape, List.flatMap_cons, escapeChar_plain h.1, ← escape, ih h.2]
    rfl

theorem escape_append (cs ds : List Char) : escape (cs ++ ds) = escape cs ++ escape ds := by
  rw [escape, List.flatMap_append]
  rfl

theorem unescape_plain (h : c ≠ '&') : unescape (c :: cs) = c :: unescape cs := by
  rw [unescape]
  all_goals
    rintro _ rfl
    exact absurd rfl h

theorem unescape_escapeChar (c : Char) (cs : List Char) :
    unescape (escapeChar c ++ cs) = c :: unescape cs := by
  unfold escapeChar
  split
  case h_6 hand _ _ => exact unescape_plain hand
  all_goals rfl

theorem unescape_escape (cs : List Char) : unescape (escape cs) = cs := by
  induction cs with
  | nil => rfl
  | cons c cs ih =>
    have hc := unescape_escapeChar c (escape cs)
    rw [ih] at hc
    exact hc

theorem mem_escapeChar {d : Char} (h : d ∈ escapeChar c) : d ≠ '<' ∧ d ≠ '"' := by
  unfold escapeChar at h
  split at h
  case h_6 hless _ _ _ hquote =>
    rw [List.mem_singleton.mp h]
    exact ⟨hless, hquote⟩
  -- a reference has neither of them
  all_goals
    constructor
    · rintro rfl
      exact absurd h (by decide)
    · rintro rfl
      exact absurd h (by decide)

theorem mem_escape (h : c ∈ escape cs) : c ≠ '<' ∧ c ≠ '"' := by
  obtain ⟨_, -, hc⟩ := List.mem_flatMap.mp h
  exact mem_escapeChar hc

theorem run_step (h : step s c = some ([], s')) : run s (c :: rest) = run s' rest := by
  rw [run, h]
  simp

theorem run_collect {f : List Char → State}
    (h : ∀ c ∈ cs, ∀ ds, step (f ds) c = some ([], f (ds ++ [c]))) (ds : List Char) :
    run (f ds) (cs ++ rest) = run (f (ds ++ cs)) rest := by
  induction cs generalizing ds with
  | nil => rw [List.nil_append, List.append_nil]
  | cons c cs ih =>
    rw [List.forall_mem_cons] at h
    rw [List.cons_append, run_step (h.1 ds), ih h.2, List.append_assoc]
    rfl

theorem run_text (t : Tag) (cs ds : List Char) :
    run (.text t ds) (escape cs ++ rest) = run (.text t (ds ++ escape cs)) rest := by
  apply run_collect
  intro c hc ds
  rw [step, if_neg (mem_escape hc).1]

theorem run_quoted (t : Tag) (name cs : List Char) :
    run (.quoted t name []) (escape cs ++ '"' :: rest) =
      run (.between (t.add name (some cs))) rest := by
  have hcollect : run (.quoted t name []) (escape cs ++ '"' :: rest) =
      run (.quoted t name ([] ++ escape cs)) ('"' :: rest) := by
    apply run_collect
    intro c hc ds
    rw [step, if_neg (mem_escape hc).2]
  have hquote : step (.quoted t name (escape cs)) '"' =
      some ([], .between (t.add name (some cs))) := by
    rw [step, if_pos rfl, unescape_escape]
  rw [hcollect, List.nil_append, run_step hquote]

def nameChar (c : Char) : Prop := c ≠ ' ' ∧ c ≠ '>' ∧ c ≠ '='

structure AttributeName (name : List Char) : Prop where
  given : name ≠ []
  chars : ∀ c ∈ name, nameChar c

structure WellFormed (t : Tag) : Prop where
  name : ∀ c ∈ t.name, nameChar c
  attributes : ∀ a ∈ t.attributes, AttributeName a.1

theorem run_name (h : ∀ c ∈ cs, nameChar c) (ds : List Char) :
    run (.name ds) (cs ++ rest) = run (.name (ds ++ cs)) rest := by
  apply run_collect
  intro c hc ds
  obtain ⟨hspace, hclose, -⟩ := h c hc
  rw [step, if_neg hspace, if_neg hclose]

theorem run_attribute (h : AttributeName cs) :
    run (.between t) (' ' :: cs ++ rest) = run (.attribute t cs) rest := by
  obtain ⟨hgiven, hchars⟩ := h
  obtain ⟨c, cs, rfl⟩ := List.exists_cons_of_ne_nil hgiven
  rw [List.forall_mem_cons] at hchars
  obtain ⟨⟨hspace, hclose, -⟩, hchars⟩ := hchars
  have hblank : step (.between t) ' ' = some ([], .between t) := by rw [step, if_pos rfl]
  have hfirst : step (.between t) c = some ([], .attribute t [c]) := by
    rw [step, if_neg hspace, if_neg hclose]
  have hcollect : run (.attribute t [c]) (cs ++ rest) = run (.attribute t ([c] ++ cs)) rest := by
    apply run_collect
    intro d hd ds
    obtain ⟨hspace, hclose, hequals⟩ := hchars d hd
    rw [step, if_neg hspace, if_neg hclose, if_neg hequals]
  rw [List.cons_append, List.cons_append, run_step hblank, run_step hfirst, hcollect]
  rfl

def Stops (rest : List Char) : Prop := ∃ tail, rest = ' ' :: tail ∨ rest = '>' :: tail

theorem stops_attributes (as : List (List Char × Option (List Char))) (rest : List Char) :
    Stops (as.flatMap renderAttribute ++ '>' :: rest) := by
  rcases as with _ | ⟨⟨name, _ | value⟩, as⟩
  · exact ⟨_, .inr rfl⟩
  · exact ⟨_, .inl rfl⟩
  · exact ⟨_, .inl rfl⟩

theorem run_between (h : Stops rest) : run (.name cs) rest = run (.between ⟨cs, [], []⟩) rest := by
  obtain ⟨tail, rfl | rfl⟩ := h
  · rw [run_step rfl, run_step rfl]
  · rw [run_step rfl, run_step rfl]

theorem run_valueless (h : Stops rest) :
    run (.attribute t cs) rest = run (.between (t.add cs none)) rest := by
  obtain ⟨tail, rfl | rfl⟩ := h
  · rw [run_step rfl, run_step rfl]
  · rw [run_step rfl, run_step rfl]

theorem run_attributes {as : List (List Char × Option (List Char))}
    (h : ∀ a ∈ as, AttributeName a.1) :
    run (.between t) (as.flatMap renderAttribute ++ '>' :: rest) =
      run (.text { t with attributes := t.attributes ++ as } []) rest := by
  induction as generalizing t with
  | nil =>
    rw [List.append_nil]
    exact run_step rfl
  | cons a as ih =>
    rw [List.forall_mem_cons] at h
    obtain ⟨ha, has⟩ := h
    have htags : ∀ value, run (.between (t.add a.1 value))
        (as.flatMap renderAttribute ++ '>' :: rest) =
          run (.text { t with attributes := t.attributes ++ (a.1, value) :: as } []) rest := by
      intro value
      rw [ih has, Tag.add, List.append_assoc]
      rfl
    obtain ⟨name, value⟩ := a
    rw [List.flatMap_cons, List.append_assoc]
    cases value with
    | none =>
      rw [renderAttribute, run_attribute ha, run_valueless (stops_attributes as rest), htags]
    | some value =>
      have hequals : step (.attribute t name) '=' = some ([], .value t name) := rfl
      have hopen : step (.value t name) '"' = some ([], .quoted t name []) := rfl
      simp only [renderAttribute, List.append_assoc, List.cons_append, List.nil_append]
      rw [← List.cons_append, run_attribute ha, run_step hequals, run_step hopen, run_quoted,
        htags]

theorem run_tag (h : WellFormed t) :
    run (.name []) ((renderTag t).tail ++ rest) = run (.text { t with text := [] } (escape t.text))
      rest := by
  have htail : (renderTag t).tail ++ rest = t.name ++ (t.attributes.flatMap renderAttribute ++
      '>' :: (escape t.text ++ rest)) := by
    simp [renderTag]
  rw [htail, run_name h.name, List.nil_append, run_between (stops_attributes _ _),
    run_attributes h.attributes, run_text]
  rfl

theorem run_tags {tags : List Tag} (h : ∀ t ∈ tags, WellFormed t) (t : Tag) (cs : List Char) :
    run (.text t (escape cs)) (render tags) = some ({ t with text := cs } :: tags) := by
  induction tags generalizing t cs with
  | nil =>
    rw [render, List.flatMap_nil, run, unescape_escape]
  | cons next tags ih =>
    rw [List.forall_mem_cons] at h
    have hopen : step (.text t (escape cs)) '<' = some ([{ t with text := cs }], .name []) := by
      rw [step, if_pos rfl, unescape_escape]
    have hrender : render (next :: tags) = '<' :: ((renderTag next).tail ++ render tags) := rfl
    rw [hrender, run, hopen]
    dsimp only
    rw [run_tag h.1, ih h.2]
    rfl

/-- What was written is read, whatever the texts and the values are. -/
theorem readTags_render {tags : List Tag} (hne : tags ≠ []) (h : ∀ t ∈ tags, WellFormed t) :
    readTags (render tags) = some tags := by
  obtain ⟨t, tags, rfl⟩ := List.exists_cons_of_ne_nil hne
  rw [List.forall_mem_cons] at h
  have hrender : render (t :: tags) = '<' :: ((renderTag t).tail ++ render tags) := rfl
  have hopen : step .start '<' = some ([], .name []) := rfl
  rw [readTags, hrender, run_step hopen, run_tag h.1, run_tags h.2]

end QCap.Markup
