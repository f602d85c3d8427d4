import QCap.Archive
import QCap.GoDocuments

/-!
# Names of accepted entries

`path.Clean` leaves a relative name alone when no segment is empty, a dot or two dots, and,
apart from `.` and names that lead upwards, only then. The names that the registry lets pass
are therefore names of files below the payload directory of the client, each spelt in the one
way that its location has.
-/
namespace QCap.CleanNames

open QCap.Text QCap.PathTree QCap.Archive QCap.RegistryArchive QCap.GoDocuments

def Plain (segment : String) : Prop := segment ≠ "" ∧ segment ≠ "." ∧ segment ≠ ".."

/-- The names so far, in reverse: plain ones above the leading pairs of dots. -/
def Stacked (names : List String) : Prop :=
  ∃ plain k, (∀ s ∈ plain, Plain s) ∧ names = plain ++ List.replicate k ".."

theorem cleanStep_stacked {names : List String} (h : Stacked names) (segment : String) :
    Stacked (cleanStep false names segment) := by
  obtain ⟨plain, k, hp, rfl⟩ := h
  unfold cleanStep
  by_cases hskip : segment = "" ∨ segment = "."
  · rw [if_pos hskip]
    exact ⟨plain, k, hp, rfl⟩
  rw [if_neg hskip]
  by_cases hup : segment = ".."
  · rw [if_pos hup]
    cases plain with
    | nil =>
      cases k with
      | zero => exact ⟨[], 1, by simp, rfl⟩
      | succ k => exact ⟨[], k + 2, by simp, rfl⟩
    | cons s plain =>
      have hs : s ≠ ".." := (hp s (by simp)).2.2
      refine ⟨plain, k, fun t ht => hp t (List.mem_cons_of_mem _ ht), ?_⟩
      simp
  · rw [if_neg hup]
    rw [not_or] at hskip
    refine ⟨segment :: plain, k, ?_, rfl⟩
    rw [List.forall_mem_cons]
    exact ⟨⟨hskip.1, hskip.2, hup⟩, hp⟩

theorem cleanSteps_stacked (segments : List String) {names : List String} (h : Stacked names) :
    Stacked (segments.foldl (cleanStep false) names) := by
  induction segments generalizing names with
  | nil => exact h
  | cons segment segments ih => exact ih (cleanStep_stacked h segment)

theorem cleanSteps_mem {segments names : List String} {s : String}
    (h : s ∈ segments.foldl (cleanStep false) names) :
    s ∈ segments ∨ s ∈ names ∨ s = ".." := by
  induction segments generalizing names with
  | nil => exact Or.inr (Or.inl h)
  | cons segment segments ih =>
    have hstep : ∀ t ∈ cleanStep false names segment, t = segment ∨ t ∈ names ∨ t = ".." := by
      intro t ht
      unfold cleanStep at ht
      split at ht
      · exact Or.inr (Or.inl ht)
      split at ht
      · split at ht
        · have hd : t = ".." := by simpa using ht
          exact Or.inr (Or.inr hd)
        · rcases List.mem_cons.mp ht with ht | ht
          · exact Or.inr (Or.inr ht)
          · exact Or.inr (Or.inl ht)
        · exact Or.inr (Or.inl (List.mem_cons_of_mem _ ht))
      · exact (List.mem_cons.mp ht).imp_right Or.inl
    rcases ih h with h | h | h
    · exact Or.inl (List.mem_cons_of_mem _ h)
    · rcases hstep s h with rfl | h | h
      · exact Or.inl List.mem_cons_self
      · exact Or.inr (Or.inl h)
      · exact Or.inr (Or.inr h)
    · exact Or.inr (Or.inr h)

theorem clean_fixed {p : String} (h : cleanPath p = p) (hr : startsWith p "/" = false)
    (hdot : p ≠ ".") (hup : p ≠ "..") (hups : startsWith p "../" = false) :
    ∀ s ∈ splitOn p '/', Plain s := by
  have hstart : Stacked [] := ⟨[], 0, by simp, rfl⟩
  obtain ⟨plain, k, hplain, hnames⟩ := cleanSteps_stacked (splitOn p '/') hstart
  have hfree : ∀ s ∈ (splitOn p '/').foldl (cleanStep false) [], Free '/' s := by
    intro s hs
    rcases cleanSteps_mem hs with hs | hs | rfl
    · exact splitOn_free s hs
    · exact absurd hs List.not_mem_nil
    · decide
  simp only [cleanPath, hr, Bool.false_eq_true, if_false, hnames] at h
  rw [hnames] at hfree
  by_cases hout : joinWith '/' (plain ++ List.replicate k "..").reverse = ""
  · rw [if_pos hout] at h
    exact absurd h.symm hdot
  rw [if_neg hout] at h
  have hne : (plain ++ List.replicate k "..").reverse ≠ [] := by
    intro he
    rw [he] at hout
    exact hout (by decide)
  have hsplit : splitOn p '/' = (plain ++ List.replicate k "..").reverse := by
    conv_lhs => rw [← h]
    exact splitOn_joinWith hne fun s hs => hfree s (List.mem_reverse.mp hs)
  cases k with
  | zero =>
    intro s hs
    rw [hsplit] at hs
    exact hplain s (by simpa using hs)
  | succ k =>
    -- two dots at the bottom of the stack come first in the name
    exfalso
    have hhead : (plain ++ List.replicate (k + 1) "..").reverse =
        ".." :: (plain ++ List.replicate k "..").reverse := by
      rw [List.replicate_succ', ← List.append_assoc, List.reverse_concat]
    rw [hhead] at h
    cases hrest : (plain ++ List.replicate k "..").reverse with
    | nil =>
      rw [hrest, joinWith_singleton] at h
      exact hup h.symm
    | cons next rest =>
      rw [hrest, joinWith_cons_cons] at h
      have hstart : startsWith p "../" = true := by
        rw [← h]
        exact startsWith_append "../" _
      rw [hups] at hstart
      cases hstart

theorem clean_pathString {p : RelPath} (hne : p ≠ []) (h : ∀ n ∈ p, FileName n) :
    cleanPath (pathString p) = pathString p := by
  have hfold : ∀ (segments names : List String), (∀ n ∈ segments, FileName n) →
      segments.foldl (cleanStep false) names = segments.reverse ++ names := by
    intro segments
    induction segments with
    | nil => intro names _; rfl
    | cons n segments ih =>
      intro names hs
      have hn := hs n List.mem_cons_self
      have hstep : cleanStep false names n = n :: names := by
        simp [cleanStep, hn.1, hn.2.1, hn.2.2.1]
      rw [List.foldl_cons, hstep, ih _ fun m hm => hs m (List.mem_cons_of_mem _ hm)]
      simp
  have hout : joinWith '/' p ≠ "" := by
    intro he
    have hv := validate_pathString hne h
    rw [pathString, he] at hv
    exact absurd hv (by decide)
  simp only [cleanPath, pathString_relative hne h, splitOn_pathString hne h, hfold p [] h,
    List.append_nil, List.reverse_reverse, Bool.false_eq_true, if_false]
  rw [if_neg hout, pathString]

section Names

variable {entry : ZipFile}

theorem wellNamed_fileNames (h : WellNamed entry) (hf : endsWith entry.name "/" = false) :
    ∀ s ∈ splitOn entry.name '/', FileName s := by
  have htrim : trimSuffix entry.name "/" = entry.name := by
    simp [trimSuffix, stripSuffix, hf]
  have hsafe := h.safe
  have hclean := h.clean
  rw [htrim] at hclean
  simp only [unsafeName, unsafeClean, htrim, Bool.or_eq_false_iff, decide_eq_false_iff_not,
    not_not] at hsafe hclean
  obtain ⟨⟨-, hnul⟩, hrel⟩ := hsafe
  obtain ⟨⟨⟨hdot, hup⟩, hups⟩, hfix⟩ := hclean
  rw [hfix] at hdot hup hups
  intro s hs
  obtain ⟨h1, h2, h3⟩ := clean_fixed hfix hrel hdot hup hups s hs
  exact ⟨h1, h2, h3, splitOn_free s hs, fun hm => hnul (mem_splitOn hs hm)⟩

theorem wellNamed_free (h : WellNamed entry) : Free '\\' entry.name := by
  have hsafe := h.safe
  simp only [unsafeName, Bool.or_eq_false_iff, decide_eq_false_iff_not] at hsafe
  exact hsafe.1.1.1.2

theorem wellNamed_isDir (h : WellNamed entry) : isDir entry.name = endsWith entry.name "/" := by
  have hb : endsWith entry.name "\\" = false := by
    by_contra he
    rw [Bool.not_eq_false] at he
    exact wellNamed_free h (List.mem_of_getLast? (endsWith_singleton (c := '\\') he))
  rw [isDir, hb, Bool.or_false]

theorem wellNamed_payload (h : WellNamed entry) {rel : String}
    (hname : entry.name = "payload/" ++ rel) (hf : endsWith entry.name "/" = false) :
    splitOn rel '/' ≠ [] ∧ (∀ s ∈ splitOn rel '/', FileName s) ∧
      pathString (splitOn rel '/') = rel := by
  have hsplit : splitOn entry.name '/' = "payload" :: splitOn rel '/' := by
    have hp : "payload/" = "payload" ++ String.singleton '/' := by decide
    rw [hname, hp, splitOn_append, splitOn_of_free (by decide), List.singleton_append]
  have hfiles := wellNamed_fileNames h hf
  rw [hsplit] at hfiles
  exact ⟨splitOn_ne_nil _ _, fun s hs => hfiles s (List.mem_cons_of_mem _ hs),
    joinWith_splitOn rel '/'⟩

end Names

theorem payloadRel_some {entry : ZipEntry} {rel : String} (h : payloadRel entry = some rel) :
    isDir entry.name = false ∧ entry.name = "payload/" ++ rel := by
  unfold payloadRel at h
  split at h
  · cases h
  · rename_i hdir
    exact ⟨Bool.not_eq_true _ ▸ hdir, stripPrefix_eq_some.mp h⟩

structure Unambiguous (zip : Zip) : Prop where
  every_file : ∀ entry ∈ zip, startsWith entry.name "payload/" = true →
    endsWith entry.name "/" = false →
      ∃ rel, entry.name = "payload/" ++ rel ∧ (rel, entry.bytes) ∈ payloadWrites zip
  valid : ∀ w ∈ payloadWrites zip, validateRelativePath w.1 = .ok ()
  normal : ∀ w ∈ payloadWrites zip, pathString (destination w.1) = w.1 ∧
    ∀ segment ∈ splitOn w.1 '/', Plain segment
  distinct : ((payloadWrites zip).map fun w => destination w.1).Nodup
  kept : ∀ allowed root count n tree, writeEntries allowed root count zip = (.ok n, tree) →
    ∀ w ∈ allowedWrites allowed zip, tree.read (destination w.1) = some w.2

theorem payloadWrites_names (zip : Zip) :
    ((payloadWrites zip).map fun w => "payload/" ++ w.1).Sublist (zip.map ZipEntry.name) := by
  induction zip with
  | nil => exact List.Sublist.refl _
  | cons entry zip ih =>
    rw [payloadWrites, List.filterMap_cons]
    cases hr : payloadRel entry with
    | none => exact ih.cons _
    | some rel =>
      rw [List.map_cons, (payloadRel_some hr).2]
      exact ih.cons_cons _

theorem unambiguous_of_names {entries : List ZipFile} {zip : Zip}
    (hnamed : ∀ entry ∈ entries, WellNamed entry)
    (hdistinct : (entries.map ZipFile.name).Nodup)
    (hzip : zip.map ZipEntry.name = entries.map ZipFile.name) : Unambiguous zip := by
  have hentry : ∀ e ∈ zip, ∃ entry ∈ entries, entry.name = e.name := by
    intro e he
    have hm := List.mem_map_of_mem (f := ZipEntry.name) he
    rw [hzip] at hm
    exact List.mem_map.mp hm
  have hplain : ∀ w ∈ payloadWrites zip, splitOn w.1 '/' ≠ [] ∧
      (∀ s ∈ splitOn w.1 '/', FileName s) ∧ pathString (splitOn w.1 '/') = w.1 := by
    intro w hw
    obtain ⟨e, he, hr⟩ := List.mem_filterMap.mp hw
    obtain ⟨rel, hrel, rfl⟩ := Option.map_eq_some_iff.mp hr
    obtain ⟨entry, hm, hn⟩ := hentry e he
    obtain ⟨hdir, hname⟩ := payloadRel_some hrel
    rw [← hn, wellNamed_isDir (hnamed entry hm)] at hdir
    exact wellNamed_payload (hnamed entry hm) (hn.trans hname) hdir
  have hnormal : ∀ w ∈ payloadWrites zip, pathString (destination w.1) = w.1 := by
    intro w hw
    obtain ⟨hne, hnames, hspell⟩ := hplain w hw
    rw [← hspell, destination_pathString hne hnames]
  have hnodup : ((payloadWrites zip).map fun w => destination w.1).Nodup := by
    apply List.Nodup.of_map fun p => "payload/" ++ pathString p
    have hback : ((payloadWrites zip).map fun w => destination w.1).map
        (fun p => "payload/" ++ pathString p) =
          (payloadWrites zip).map fun w => "payload/" ++ w.1 := by
      rw [List.map_map]
      exact List.map_congr_left fun w hw => by simp [hnormal w hw]
    rw [hback]
    exact (payloadWrites_names zip).nodup (hzip ▸ hdistinct)
  refine ⟨?_, ?_, ?_, hnodup, ?_⟩
  · intro e he hstart hf
    obtain ⟨rel, hrel⟩ := startsWith_iff.mp hstart
    obtain ⟨entry, hm, hn⟩ := hentry e he
    have hdir : isDir e.name = false := by
      rw [← hn, wellNamed_isDir (hnamed entry hm), hn, hf]
    refine ⟨rel, hrel, List.mem_filterMap.mpr ⟨e, he, ?_⟩⟩
    rw [payloadRel, hdir, hrel, stripPrefix_append]
    rfl
  · intro w hw
    obtain ⟨hne, hnames, hspell⟩ := hplain w hw
    exact hspell ▸ validate_pathString hne hnames
  · intro w hw
    refine ⟨hnormal w hw, fun s hs => ?_⟩
    have hfile := (hplain w hw).2.1 s hs
    exact ⟨hfile.1, hfile.2.1, hfile.2.2.1⟩
  · intro allowed root count n tree h w hw
    have hlog := (writeEntries_ok h).1
    have hkeys : ((allowedWrites allowed zip).map fun w => destination w.1).Nodup :=
      (List.filter_sublist.map _).nodup hnodup
    rw [wrote_read hlog, lastWrite, WriteLog.last_of_nodup _ _ hkeys hw, Option.some_or]

variable (C : Crypto.Primitives) (G : GoLib)

/-- An accepted archive is unambiguous for the client, whose reader finds the same names. -/
theorem accepted_unambiguous {opened : GoResult (List ZipFile)}
    (h : validateQcapArchive C G opened = .ok ()) :
    ∃ entries, opened = .ok entries ∧ ∀ zip : Zip,
      zip.map ZipEntry.name = entries.map ZipFile.name → Unambiguous zip := by
  simp only [validateQcapArchive, bind_ok, wrap_ok] at h
  obtain ⟨entries, hopened, hvalid⟩ := h
  obtain ⟨_, _, _, _, _, ha⟩ := validateEntries_ok C G hvalid
  refine ⟨entries, hopened, fun zip hzip => ?_⟩
  refine unambiguous_of_names ha.well_named ?_ hzip
  apply List.Nodup.of_map fun name => cleanPath (trimSuffix name "/")
  rw [List.map_map]
  exact ha.distinct

def namedFiles (bundle : Formats.QcapSignatureBundle) : List ZipFile :=
  legacyArchive bundle ++
    [storedFile "payload/b/" [], storedFile "payload/b/c d" [2], storedFile "payload/a" [1]]

def namedBundle : Formats.QcapSignatureBundle :=
  Signatures.signMerkleRoot Crypto.toy "blake3:00" Crypto.signerKey

theorem namedFiles_accepted :
    validateQcapArchive Crypto.toy (legacyGo namedBundle) (.ok (namedFiles namedBundle)) =
      .ok () := by
  obtain ⟨hm, hb⟩ : (legacyManifest namedBundle.merkleRoot).length ≤ maxManifestBytes ∧
      (Json.bundleBytes namedBundle).length ≤ maxManifestBytes :=
    signed_documents_fit _ _ (by decide)
  have hverify := (Crypto.toy_signatureCorrect Crypto.signerKey
    (Text.asBytes namedBundle.merkleRoot)).2
  refine legacyFiles_accepted Crypto.toy _ rfl (hexDecode_hexEncode _) (hexDecode_hexEncode _)
    hverify (by decide) hm hb (by decide) ?_ (by decide) (by decide)
  intro entry he
  simp only [List.mem_cons, List.not_mem_nil, or_false] at he
  rcases he with rfl | rfl | rfl <;> constructor <;> decide

theorem namedFiles_unambiguous :
    ∃ entries, (.ok (namedFiles namedBundle) : GoResult (List ZipFile)) = .ok entries ∧
      ∀ zip : Zip, zip.map ZipEntry.name = entries.map ZipFile.name → Unambiguous zip :=
  accepted_unambiguous Crypto.toy (legacyGo namedBundle) namedFiles_accepted

end QCap.CleanNames
