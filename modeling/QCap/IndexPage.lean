import QCap.GoJson
import QCap.Markup
import QCap.RegistryClient
import QCap.RegistryRefinement

/-!
# The index page

`GET /index` answers with markup. A browser finds the tags of the page and the rows of the
index in it, whatever stands in the rows. A link leads to its artifact if a URL keeps its
characters: the page writes names as they are.
-/
namespace QCap.IndexPage

open QCap.Text QCap.Crypto QCap.Refinement QCap.Markup QCap.RegistryArchive QCap.RegistryIndex
open QCap.RegistryPublish QCap.RegistryRuns QCap.RegistryService QCap.RegistryStore
open QCap.RegistryRefinement QCap.RegistryNames QCap.RegistryClient QCap.GoDocuments
open QCap.IndexJson (goIndexCodec goIndexCodec_readsBack)

/-- To the nearest, and between two to the even one. -/
def roundDiv (n d : ℕ) : ℕ :=
  if 2 * (n % d) < d then n / d
  else if d < 2 * (n % d) then n / d + 1
  else n / d + n / d % 2

def toFloat64 (n : ℕ) : ℕ :=
  if n < 2 ^ 53 then n else roundDiv n (2 ^ (Nat.log2 n - 52)) * 2 ^ (Nat.log2 n - 52)

/-- `%.2f` of a quotient by a power of two, which is exact. -/
def twoDecimals (n unit : ℕ) : String :=
  let hundredths := roundDiv (100 * toFloat64 n) unit
  toString (hundredths / 100) ++ "." ++ toString (hundredths % 100 / 10) ++
    toString (hundredths % 10)

def formatSize (n : ℤ) : String :=
  if 1024 ^ 3 ≤ n then twoDecimals n.toNat (1024 ^ 3) ++ " GB"
  else if 1024 ^ 2 ≤ n then twoDecimals n.toNat (1024 ^ 2) ++ " MB"
  else if 1024 ≤ n then twoDecimals n.toNat 1024 ++ " KB"
  else toString n ++ " B"

example : [-1, 1023, 1536, 1048575, 5 * 1024 ^ 3 / 2].map formatSize =
    ["-1 B", "1023 B", "1.50 KB", "1024.00 KB", "2.50 GB"] := by decide

def escapeString (s : String) : String := String.ofList (escape s.toList)

def indexRow (c : Capsule) : String :=
  "<li>" ++ escapeString c.name ++
    (" - <a href=\"" ++ escapeString c.path ++ "\">download</a> (" ++ escapeString c.contentType ++
      ", " ++ formatSize c.size ++ ", " ++ escapeString c.digest ++ ")") ++
    "</li>"

def indexHead : String :=
  "<!doctype html><html><head><meta charset=\"utf-8\"><title>Index</title></head><body>" ++
    "<h1>Artifact Index</h1>\n"

def indexList (index : List Capsule) : String :=
  if index.length = 0 then "<p><em>No artifacts found.</em></p>"
  else "<ul>" ++ String.join (index.map indexRow) ++ "</ul>"

def indexFoot : String :=
  "<p>Machine-readable index: <a href=\"/index.json\">/index.json</a></p>" ++ "</body></html>"

def indexHTML (index : List Capsule) : String := indexHead ++ indexList index ++ indexFoot

def tag (name text : String) : Tag := ⟨name.toList, [], text.toList⟩

def link (href text : String) : Tag :=
  ⟨"a".toList, [("href".toList, some href.toList)], text.toList⟩

def rowTags (c : Capsule) : List Tag :=
  [tag "li" (c.name ++ " - "), link c.path "download",
    tag "/a" (" (" ++ c.contentType ++ ", " ++ formatSize c.size ++ ", " ++ c.digest ++ ")"),
    tag "/li" ""]

def headTags : List Tag :=
  [⟨"!doctype".toList, [("html".toList, none)], []⟩, tag "html" "", tag "head" "",
    ⟨"meta".toList, [("charset".toList, some "utf-8".toList)], []⟩, tag "title" "Index",
    tag "/title" "", tag "/head" "", tag "body" "", tag "h1" "Artifact Index", tag "/h1" "\n"]

def listTags (index : List Capsule) : List Tag :=
  if index.length = 0 then
    [tag "p" "", tag "em" "No artifacts found.", tag "/em" "", tag "/p" ""]
  else tag "ul" "" :: index.flatMap rowTags ++ [tag "/ul" ""]

def footTags : List Tag :=
  [tag "p" "Machine-readable index: ", link "/index.json" "/index.json", tag "/a" "", tag "/p" "",
    tag "/body" "", tag "/html" ""]

def pageTags (index : List Capsule) : List Tag := headTags ++ listTags index ++ footTags

def links (tags : List Tag) : List String :=
  tags.filterMap fun t =>
    if t.name = "a".toList then (t.attributes.lookup "href".toList).join.map String.ofList else none

variable {c : Capsule} {index : List Capsule}

theorem toString_unescaped (n : ℕ) : ∀ c ∈ (toString n).toList, c ∉ special := by
  intro c hc
  rw [Nat.toString_eq_repr, Nat.toList_repr] at hc
  have hdigit := GoJson.isDigit_of_toDigits c hc
  rintro hs
  simp only [special, List.mem_cons, List.not_mem_nil, or_false] at hs
  rcases hs with rfl | rfl | rfl | rfl | rfl
  · cases hdigit
  · cases hdigit
  · cases hdigit
  · cases hdigit
  · cases hdigit

theorem toString_int_unescaped (n : ℤ) : ∀ c ∈ (toString n).toList, c ∉ special := by
  rw [Int.toString_eq_repr, Int.repr_eq_if]
  by_cases hn : 0 ≤ n
  · rw [if_pos hn, ← Nat.toString_eq_repr]
    exact toString_unescaped _
  · rw [if_neg hn, ← Nat.toString_eq_repr, GoJson.toList_negative, List.forall_mem_cons]
    exact ⟨by decide, toString_unescaped _⟩

theorem twoDecimals_unescaped (n unit : ℕ) : ∀ c ∈ (twoDecimals n unit).toList, c ∉ special := by
  simp only [twoDecimals, String.toList_append, List.forall_mem_append]
  refine ⟨⟨⟨toString_unescaped _, ?_⟩, toString_unescaped _⟩, toString_unescaped _⟩
  simp [special]

theorem formatSize_unescaped (n : ℤ) : ∀ c ∈ (formatSize n).toList, c ∉ special := by
  have hunit : ∀ size unit : String, (∀ c ∈ size.toList, c ∉ special) →
      unit ∈ [" GB", " MB", " KB", " B"] → ∀ c ∈ (size ++ unit).toList, c ∉ special := by
    intro size unit hsize hunit
    rw [String.toList_append, List.forall_mem_append]
    refine ⟨hsize, ?_⟩
    revert unit
    simp [special]
  rw [formatSize]
  by_cases hgb : 1024 ^ 3 ≤ n
  · rw [if_pos hgb]
    exact hunit _ _ (twoDecimals_unescaped _ _) (by decide)
  rw [if_neg hgb]
  by_cases hmb : 1024 ^ 2 ≤ n
  · rw [if_pos hmb]
    exact hunit _ _ (twoDecimals_unescaped _ _) (by decide)
  rw [if_neg hmb]
  by_cases hkb : 1024 ≤ n
  · rw [if_pos hkb]
    exact hunit _ _ (twoDecimals_unescaped _ _) (by decide)
  rw [if_neg hkb]
  exact hunit _ _ (toString_int_unescaped _) (by decide)

theorem toList_escapeString (s : String) : (escapeString s).toList = escape s.toList :=
  String.toList_ofList

theorem renderTag_tag (name text : String) :
    renderTag (tag name text) = '<' :: (name.toList ++ '>' :: escape text.toList) := by
  simp [renderTag, tag]

theorem renderTag_link (href text : String) :
    renderTag (link href text) =
      "<a href=\"".toList ++ (escape href.toList ++ '"' :: '>' :: escape text.toList) := by
  simp [renderTag, link, renderAttribute]

theorem indexRow_eq (c : Capsule) : (indexRow c).toList = render (rowTags c) := by
  have hsize := escape_plain (formatSize_unescaped c.size)
  simp only [indexRow, rowTags, render, List.flatMap_cons, List.flatMap_nil, renderTag_tag,
    renderTag_link, String.toList_append, toList_escapeString, escape_append, hsize,
    List.append_assoc, List.cons_append]
  rfl

theorem indexRows_eq (index : List Capsule) :
    (String.join (index.map indexRow)).toList = render (index.flatMap rowTags) := by
  have hrows : (fun c => (indexRow c).toList) = fun c => (rowTags c).flatMap renderTag :=
    funext indexRow_eq
  rw [String.toList_join, List.flatMap_map, hrows, render, List.flatMap_assoc]

theorem indexList_eq (index : List Capsule) :
    (indexList index).toList = render (listTags index) := by
  rw [indexList, listTags]
  by_cases hempty : index.length = 0
  · rw [if_pos hempty, if_pos hempty]
    decide
  · rw [if_neg hempty, if_neg hempty, String.toList_append, String.toList_append, indexRows_eq]
    simp only [render, List.cons_append, List.flatMap_cons, List.flatMap_append]
    rfl

theorem indexHTML_eq (index : List Capsule) :
    (indexHTML index).toList = render (pageTags index) := by
  have hhead : indexHead.toList = render headTags := by decide
  have hfoot : indexFoot.toList = render footTags := by decide
  rw [indexHTML, pageTags, String.toList_append, String.toList_append, hhead, indexList_eq,
    hfoot]
  simp only [render, List.flatMap_append]

def tagNames : List String :=
  ["html", "head", "title", "/title", "/head", "body", "h1", "/h1", "p", "em", "/em", "/p", "ul",
    "li", "/a", "/li", "/ul", "/body", "/html"]

theorem wellFormed_tag {name : String} (text : String) (h : name ∈ tagNames) :
    WellFormed (tag name text) := by
  have hnames : ∀ name ∈ tagNames, ∀ c ∈ name.toList, nameChar c := by
    simp [tagNames, nameChar]
  exact ⟨hnames name h, by simp [tag]⟩

theorem wellFormed_attribute {name key : String} (value : Option (List Char))
    (h : (name, key) ∈ [("!doctype", "html"), ("meta", "charset"), ("a", "href")])
    (text : List Char) : WellFormed ⟨name.toList, [(key.toList, value)], text⟩ := by
  have hnames : ∀ n ∈ [("!doctype", "html"), ("meta", "charset"), ("a", "href")],
      (∀ c ∈ n.1.toList, nameChar c) ∧ n.2.toList ≠ [] ∧ ∀ c ∈ n.2.toList, nameChar c := by
    simp [nameChar]
  obtain ⟨hname, hgiven, hchars⟩ := hnames _ h
  refine ⟨hname, ?_⟩
  intro a ha
  rw [List.mem_singleton] at ha
  subst ha
  exact ⟨hgiven, hchars⟩

theorem wellFormed_head : ∀ t ∈ headTags, WellFormed t := by
  simp only [headTags, List.forall_mem_cons]
  refine ⟨wellFormed_attribute _ (by decide) _, wellFormed_tag _ (by decide),
    wellFormed_tag _ (by decide), wellFormed_attribute _ (by decide) _,
    wellFormed_tag _ (by decide), wellFormed_tag _ (by decide), wellFormed_tag _ (by decide),
    wellFormed_tag _ (by decide), wellFormed_tag _ (by decide), wellFormed_tag _ (by decide),
    List.forall_mem_nil _⟩

theorem wellFormed_row (c : Capsule) : ∀ t ∈ rowTags c, WellFormed t := by
  simp only [rowTags, List.forall_mem_cons]
  exact ⟨wellFormed_tag _ (by decide), wellFormed_attribute _ (by decide) _,
    wellFormed_tag _ (by decide), wellFormed_tag _ (by decide), List.forall_mem_nil _⟩

theorem wellFormed_list (index : List Capsule) : ∀ t ∈ listTags index, WellFormed t := by
  rw [listTags]
  by_cases hempty : index.length = 0
  · rw [if_pos hempty]
    simp only [List.forall_mem_cons]
    exact ⟨wellFormed_tag _ (by decide), wellFormed_tag _ (by decide),
      wellFormed_tag _ (by decide), wellFormed_tag _ (by decide), List.forall_mem_nil _⟩
  · rw [if_neg hempty, List.forall_mem_append, List.forall_mem_cons, List.forall_mem_flatMap,
      List.forall_mem_singleton]
    exact ⟨⟨wellFormed_tag _ (by decide), fun c _ => wellFormed_row c⟩,
      wellFormed_tag _ (by decide)⟩

theorem wellFormed_foot : ∀ t ∈ footTags, WellFormed t := by
  simp only [footTags, List.forall_mem_cons]
  exact ⟨wellFormed_tag _ (by decide), wellFormed_attribute _ (by decide) _,
    wellFormed_tag _ (by decide), wellFormed_tag _ (by decide), wellFormed_tag _ (by decide),
    wellFormed_tag _ (by decide), List.forall_mem_nil _⟩

/-- No name, path or digest adds a tag to the page or takes one away. -/
theorem readTags_indexHTML (index : List Capsule) :
    readTags (indexHTML index).toList = some (pageTags index) := by
  rw [indexHTML_eq]
  apply readTags_render
  · rw [pageTags, headTags, List.append_assoc]
    exact List.cons_ne_nil _ _
  · rw [pageTags, List.forall_mem_append, List.forall_mem_append]
    exact ⟨⟨wellFormed_head, wellFormed_list index⟩, wellFormed_foot⟩

theorem links_append (tags others : List Tag) :
    links (tags ++ others) = links tags ++ links others := List.filterMap_append

theorem links_rows (index : List Capsule) :
    links (index.flatMap rowTags) = index.map Capsule.path := by
  induction index with
  | nil => rfl
  | cons c index ih =>
    have hrow : links (rowTags c) = [c.path] := by
      simp [links, rowTags, tag, link, String.ofList_toList]
    rw [List.flatMap_cons, links_append, hrow, ih]
    rfl

theorem links_pageTags (index : List Capsule) :
    links (pageTags index) = index.map Capsule.path ++ ["/index.json"] := by
  have hhead : links headTags = [] := by decide
  have hfoot : links footTags = ["/index.json"] := by decide
  have hlist : links (listTags index) = index.map Capsule.path := by
    rw [listTags]
    by_cases hempty : index.length = 0
    · rw [if_pos hempty, List.length_eq_zero_iff.mp hempty]
      decide
    · have hopen : links [tag "ul" ""] = [] := by decide
      have hclose : links [tag "/ul" ""] = [] := by decide
      rw [if_neg hempty, ← List.singleton_append, links_append, links_append, hopen, hclose,
        links_rows, List.nil_append, List.append_nil]
  rw [pageTags, links_append, links_append, hhead, hlist, hfoot, List.nil_append]

section

variable {C : Primitives} {G : GoLib} {X : IndexCodec} {cfg : Config} {s : System}
  {before middle after : List Seen} {urlPath href : String} {answer : Answer}

/-- `target` gives the path that the server is asked for when a link of the page is followed. -/
def Follows (target : String → String) : Prop := ∀ path, UrlPath path → target path = path

theorem row_target {target : String → String} (ht : Follows target) {row : Capsule}
    (hpath : row.path = "/artifacts/" ++ row.name)
    (hname : ∃ rawName, artifactName rawName = some row.name)
    (hkept : ∀ c ∈ row.path.toList, keptChar c = true) : target row.path = row.path := by
  obtain ⟨rawName, hraw⟩ := hname
  have hstored : StoredName (Config.default [] "") row.name := artifactName_stored _ hraw
  have hchars : ∀ c ∈ row.name.toList, keptChar c = true := by
    intro c hc
    apply hkept
    rw [hpath, String.toList_append]
    exact List.mem_append_right _ hc
  have hurl := urlPath_artifacts.child (urlSegment_stored hstored hchars)
  have hdir : "/artifacts" ++ "/" = "/artifacts/" := by decide
  rw [hdir, ← hpath] at hurl
  exact ht _ hurl

/-- The tags of a page that a client has are those of the rows, and behind each link that a URL
keeps is the index or an artifact: a valid one, and what the row says until another upload of the
name or a kill inside one. -/
theorem page_links_served (hcfg : cfg.DefaultIndex) (hX : X.ReadsBack)
    {target : String → String} (ht : Follows target)
    (h : RunsFromEmpty C G X cfg (before ++ .read urlPath (.indexPage index) ::
      (middle ++ .read (target href) answer :: after)) s) :
    readTags (indexHTML index).toList = some (pageTags index) ∧
      (href ∈ links (pageTags index) → (∀ c ∈ href.toList, keptChar c = true) →
        (∃ index', answer = .index index' ∧
          ∀ row ∈ index, ∃ row' ∈ index', row'.name = row.name ∧ row'.createdAt = row.createdAt) ∨
        ∃ row ∈ index, href = row.path ∧ ∃ bytes, answer = .file (.file bytes) ∧
          validateQcapArchive C G (G.openReader bytes) = .ok () ∧
          ((∀ s ∈ middle, s.NotCreated row.name) →
            bytes.length = row.size ∧ fileDigest C bytes = row.digest)) := by
  obtain ⟨hruns, -⟩ := runs_store hcfg hX h
  have hlater := fun row (hrow : row ∈ index) =>
    index_later allValid_empty (.inr rfl) hruns hrow
  obtain ⟨m, _, hbefore, hpage, hrest⟩ := hruns.cut
  obtain ⟨-, hanswer⟩ := hpage.read_inv
  have hvalid : AllValid C G m :=
    hbefore.invariant (fun _ _ _ ht hstep => hstep.allValid ht) allValid_empty
  refine ⟨readTags_indexHTML index, ?_⟩
  intro hlink hkept
  rw [links_pageTags, List.mem_append, List.mem_map, List.mem_singleton] at hlink
  rcases hlink with ⟨row, hrow, rfl⟩ | rfl
  · obtain ⟨hpath, hname⟩ := (hanswer.rows index (.inr rfl)).named hvalid hrow
    obtain ⟨bytes, ha, hvalid, hsame⟩ := (hlater row hrow).2 (row_target ht hpath hname hkept)
    exact .inr ⟨row, hrow, rfl, bytes, ha, hvalid.valid, hsame⟩
  · obtain ⟨_, _, -, hread, -⟩ := hrest.cut
    obtain ⟨-, hanswer'⟩ := hread.read_inv
    have htarget : target "/index.json" = "/index.json" :=
      ht _ ⟨by decide, hkept, by decide, by decide⟩
    obtain ⟨index', rfl⟩ := hanswer'.indexJSON htarget
    refine .inl ⟨index', rfl, ?_⟩
    intro row hrow
    obtain ⟨row', hrow', hname, htime, -⟩ := (hlater row hrow).1 index' (.inl rfl)
    exact ⟨row', hrow', hname, htime⟩

end

/-- A client that opens the page, and follows its link when the process has been killed in
between. -/
theorem samplePage_links_served : ∃ files : RegistryFiles.Files,
    let served := Answer.file (serveArtifact sampleConfig sampleCapsule.path files)
    let index := sampleRun.reg.index
    readTags (indexHTML index).toList = some (pageTags index) ∧
      (sampleCapsule.path ∈ links (pageTags index) →
        (∀ c ∈ sampleCapsule.path.toList, keptChar c = true) →
        (∃ index', served = .index index' ∧
          ∀ row ∈ index, ∃ row' ∈ index', row'.name = row.name ∧ row'.createdAt = row.createdAt) ∨
        ∃ row ∈ index, sampleCapsule.path = row.path ∧ ∃ bytes, served = .file (.file bytes) ∧
          validateQcapArchive toy (legacyGo sampleBundle)
            ((legacyGo sampleBundle).openReader bytes) = .ok () ∧
          ((∀ s ∈ [Seen.killed (some (.artifact "other.qcap"))], s.NotCreated row.name) →
            bytes.length = row.size ∧ fileDigest toy bytes = row.digest)) := by
  have hroute : route "/index" = .indexHTML := by decide
  have hindex : readAnswer sampleConfig "/index" sampleRun.reg =
      some (.indexPage sampleRun.reg.index) := by
    rw [readAnswer, hroute]
  obtain ⟨s, hkilled⟩ := sampleRun_killed
  have hread : readAnswer sampleConfig sampleCapsule.path s.reg =
      some (.file (serveArtifact sampleConfig sampleCapsule.path s.reg.files)) := by
    rw [readAnswer, sampleCapsule_route]
  have hrun : RunsFromEmpty toy (legacyGo sampleBundle) (goIndexCodec false) sampleConfig
      ([.created sampleCapsule] ++ .read "/index" (.indexPage sampleRun.reg.index) ::
        ([.killed (some (.artifact "other.qcap"))] ++ .read (id sampleCapsule.path) _ :: [])) s :=
    ((sampleRun_seen.read hindex).trans hkilled).read hread
  exact ⟨s.reg.files, page_links_served sampleConfig_default (goIndexCodec_readsBack false)
    (fun _ _ => rfl) hrun⟩

end QCap.IndexPage
