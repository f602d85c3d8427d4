import QCap.CleanNames
import QCap.IndexReload
import Mathlib.Data.List.Infix

/-!
# Names in the store

The name that `publish` takes from a header and the names that a GET asks for are made by
different steps: what the one writes, the other finds, and neither leaves the store. An
uploaded revocation list is stored under its own public key.
-/
namespace QCap.RegistryNames

open QCap.Text QCap.Crypto QCap.Formats QCap.PathTree QCap.Revocation QCap.RegistryArchive
  QCap.RegistryFiles QCap.RegistryIndex QCap.RegistryPublish QCap.IndexReload QCap.CleanNames

variable (C : Primitives) (G : GoLib) (X : IndexCodec) (cfg : Config)

structure Segment (name : String) : Prop where
  plain : Plain name
  no_slash : Free '/' name
  no_backslash : Free '\\' name

theorem trim_outer {s : String} (h : trim s = s) :
    s.toList.dropWhile isWhitespace = s.toList := by
  have hs : s.toList = (s.toList.dropWhile isWhitespace).rdropWhile isWhitespace := by
    conv_lhs => rw [← h]
    exact String.toList_ofList
  rw [hs]
  exact dropWhile_rdropWhile (List.dropWhile_idempotent _ _)

theorem trim_append {s t : String} {c : Char} (h : trim s = s) (hne : s ≠ "")
    (hc : isWhitespace c = false) : trim (s ++ (t ++ String.singleton c)) =
      s ++ (t ++ String.singleton c) := by
  have hs : s.toList ≠ [] := by simpa using hne
  obtain ⟨a, as, ha⟩ := List.exists_cons_of_ne_nil hs
  have houter := trim_outer h
  rw [ha] at houter
  have hhead : isWhitespace a = false := by
    have hn := List.dropWhile_eq_self_iff.mp houter
    simpa using hn
  have hlist : (s ++ (t ++ String.singleton c)).toList = a :: (as ++ t.toList) ++ [c] := by
    simp [String.toList_append, ha]
  rw [trim, ← String.toList_inj, String.toList_ofList, hlist, List.cons_append,
    List.dropWhile_cons_of_neg (by simp [hhead]), ← List.cons_append, List.reverse_append,
    List.reverse_singleton, List.singleton_append, List.dropWhile_cons_of_neg (by simp [hc])]
  simp

theorem not_startsWith {s p : String} {c : Char} (hs : Free c s) (hp : c ∈ p.toList) :
    startsWith s p = false := by
  by_contra h
  obtain ⟨t, ht⟩ := startsWith_iff.mp (Bool.not_eq_false _ ▸ h)
  apply hs
  rw [ht, String.toList_append]
  exact List.mem_append_left _ hp

theorem foldl_cleanStep_plain (rooted : Bool) {names : List String} (h : ∀ n ∈ names, Plain n)
    (stack : List String) : names.foldl (cleanStep rooted) stack = names.reverse ++ stack := by
  induction names generalizing stack with
  | nil => rfl
  | cons name names ih =>
    rw [List.forall_mem_cons] at h
    obtain ⟨⟨hne, hdot, hup⟩, hrest⟩ := h
    have hstep : cleanStep rooted stack name = name :: stack := by
      simp [cleanStep, hne, hdot, hup]
    rw [List.foldl_cons, hstep, ih hrest, List.reverse_cons, List.append_assoc]
    rfl

theorem flatMap_splitOn_free {names : List String} (h : ∀ n ∈ names, Free '/' n) :
    (names.flatMap fun name => splitOn name '/') = names := by
  induction names with
  | nil => rfl
  | cons name names ih =>
    rw [List.forall_mem_cons] at h
    rw [List.flatMap_cons, splitOn_of_free h.1, ih h.2]
    rfl

theorem cleanPath_rooted {names : List String} (hne : names ≠ [])
    (h : ∀ n ∈ names, Plain n ∧ Free '/' n) :
    cleanPath ("/" ++ joinWith '/' names) = "/" ++ joinWith '/' names := by
  have hroot : startsWith ("/" ++ joinWith '/' names) "/" = true := startsWith_append "/" _
  have hsplit : splitOn ("/" ++ joinWith '/' names) '/' = "" :: names := by
    have happ := splitOn_append "" (joinWith '/' names) '/'
    rw [splitOn_joinWith hne fun n hn => (h n hn).2, String.empty_append] at happ
    exact happ
  have hempty : cleanStep true [] "" = [] := by decide
  have hfold := foldl_cleanStep_plain true (fun n hn => (h n hn).1) []
  simp only [cleanPath, hroot, hsplit, List.foldl_cons, hempty, hfold, List.append_nil,
    List.reverse_reverse, if_true]

theorem cleanPath_plain {name : String} (h : Plain name) (hf : Free '/' name) :
    cleanPath name = name := by
  obtain ⟨hne, hdot, hup⟩ := h
  have hrel : startsWith name "/" = false := not_startsWith hf (by decide)
  simp only [cleanPath, hrel, splitOn_of_free hf, List.foldl_cons, List.foldl_nil, cleanStep, hne,
    hdot, hup, or_self, Bool.false_eq_true, if_false, List.reverse_singleton, joinWith_singleton]

theorem baseName_free {name : String} (hne : name ≠ "") (hf : Free '/' name) :
    baseName name = name := by
  have hall : ∀ c ∈ name.toList.reverse, c ≠ '/' := by
    intro c hc he
    exact hf (he ▸ List.mem_reverse.mp hc)
  have hdrop : name.toList.reverse.dropWhile (· = '/') = name.toList.reverse := by
    cases hl : name.toList.reverse with
    | nil => rfl
    | cons c cs =>
      rw [hl] at hall
      exact List.dropWhile_cons_of_neg (by simpa using hall c List.mem_cons_self)
  have htake : name.toList.reverse.takeWhile (· ≠ '/') = name.toList.reverse := by
    rw [List.takeWhile_eq_self_iff]
    intro c hc
    simpa using hall c hc
  have hcons : name.toList.reverse ≠ [] := by simpa using hne
  simp only [baseName, hdrop]
  rw [if_neg hne, if_neg hcons, htake, List.reverse_reverse, String.ofList_toList]

theorem isPlainName_iff {name : String} :
    isPlainName name = true ↔ name ≠ "" ∧ name ≠ ".." ∧ Free '/' name ∧ Free '\\' name := by
  simp only [isPlainName, Bool.and_eq_true, decide_eq_true_iff, and_assoc]
  constructor
  · rintro ⟨hne, hlocal, -, hslash, hback⟩
    refine ⟨hne, ?_, hslash, hback⟩
    rintro rfl
    exact absurd hlocal (by decide)
  · rintro ⟨hne, hup, hslash, hback⟩
    refine ⟨hne, ?_, baseName_free hne hslash, hslash, hback⟩
    by_cases hdot : name = "."
    · rw [hdot]
      decide
    · have hrel : startsWith name "/" = false := not_startsWith hslash (by decide)
      have hups : startsWith name "../" = false := not_startsWith hslash (by decide)
      simp [isLocal, cleanPath_plain ⟨hne, hdot, hup⟩ hslash, hrel, hups, hne, hup]

/-- `filepath.Join` with a directory that is absolute and clean. -/
def joinPath (dir : Path) (elements : List String) : Path :=
  ((elements.flatMap fun element => splitOn element '/').foldl (cleanStep true)
    dir.reverse).reverse

theorem joinPath_plain (dir : Path) {names : List String}
    (h : ∀ n ∈ names, Plain n ∧ Free '/' n) : joinPath dir names = dir ++ names := by
  rw [joinPath, flatMap_splitOn_free fun n hn => (h n hn).2,
    foldl_cleanStep_plain true fun n hn => (h n hn).1]
  simp

structure StoredName (cfg : Config) (name : String) : Prop where
  segment : Segment name
  qcap : ext name = ".qcap"
  stored : joinPath cfg.storeDir [name] = cfg.artifactPath name
  path_clean : cleanPath ("/artifacts/" ++ name) = "/artifacts/" ++ name
  requested : requestedName ("/artifacts/" ++ name) = some name

structure Sanitized (name : String) : Prop where
  trimmed : trim name = name
  plain : isPlainName name = true

theorem sanitized_safeArtifactName {raw : String} (h : safeArtifactName raw ≠ "") :
    Sanitized (safeArtifactName raw) := by
  have hp : isPlainName (trim raw) = true := by
    by_contra hn
    exact h (by simp [safeArtifactName, hn])
  have he : safeArtifactName raw = trim raw := by simp [safeArtifactName, hp]
  rw [he]
  exact ⟨trim_trim raw, hp⟩

theorem ext_qcap (name : String) : ext (name ++ ".qcap") = ".qcap" :=
  ext_last_dot (t := "qcap") (by decide)

theorem Sanitized.with_ext {name : String} (h : Sanitized name) : Sanitized (name ++ ".qcap") := by
  obtain ⟨hne, -, hslash, hback⟩ := isPlainName_iff.mp h.plain
  constructor
  · exact trim_append (t := ".qca") (c := 'p') h.trimmed hne (by decide)
  · refine isPlainName_iff.mpr ⟨by simp, ?_, free_append.mpr ⟨hslash, by decide⟩,
      free_append.mpr ⟨hback, by decide⟩⟩
    intro he
    have hext := ext_qcap name
    rw [he] at hext
    exact absurd hext (by decide)

theorem Sanitized.stored {name : String} (h : Sanitized name) (hext : ext name = ".qcap") :
    StoredName cfg name := by
  obtain ⟨hne, hup, hslash, hback⟩ := isPlainName_iff.mp h.plain
  have hdot : name ≠ "." := by
    rintro rfl
    exact absurd hext (by decide)
  have hplain : Plain name := ⟨hne, hdot, hup⟩
  have hself : safeArtifactName name = name := by
    rw [safeArtifactName, h.trimmed, if_pos h.plain]
  have hnames : ∀ n ∈ ["artifacts", name], Plain n ∧ Free '/' n := by
    intro n hn
    rcases List.mem_pair.mp hn with rfl | rfl
    · exact ⟨⟨by decide, by decide, by decide⟩, by decide⟩
    · exact ⟨hplain, hslash⟩
  constructor
  · exact ⟨hplain, hslash, hback⟩
  · exact hext
  · exact joinPath_plain cfg.storeDir (List.forall_mem_singleton.mpr ⟨hplain, hslash⟩)
  · have hpath : "/" ++ joinWith '/' ["artifacts", name] = "/artifacts/" ++ name := by
      rw [joinWith_cons_cons, joinWith_singleton, ← String.append_assoc]
      rfl
    rw [← hpath]
    exact cleanPath_rooted (by simp) hnames
  · exact (requestedName_artifact hext).mpr hself

theorem artifactName_stored {rawName name : String} (h : artifactName rawName = some name) :
    StoredName cfg name := by
  have hext := artifactName_ext h
  obtain ⟨clean, hclean, hname⟩ : ∃ clean, Sanitized clean ∧
      (if ext clean = ".qcap" then clean else clean ++ ".qcap") = name := by
    simp only [artifactName] at h
    by_cases hraw : trim rawName = ""
    · rw [if_pos hraw, if_neg (by decide)] at h
      exact ⟨"artifact.qcap", ⟨by decide, by decide⟩, Option.some.inj h⟩
    · rw [if_neg hraw] at h
      split at h
      · cases h
      · rename_i hne
        exact ⟨_, sanitized_safeArtifactName hne, Option.some.inj h⟩
  rw [← hname] at hext ⊢
  split
  · rename_i he
    exact hclean.stored cfg he
  · exact hclean.with_ext.stored cfg (ext_qcap clean)

structure HexKey (key : String) : Prop where
  length : key.toList.length = 64
  digits : ∀ c ∈ key.toList, (hexValue c).isSome

theorem hexDecodeChars_digits {cs : List Char} {b : Bytes} (h : hexDecodeChars cs = some b) :
    cs.length = 2 * b.length ∧ ∀ c ∈ cs, (hexValue c).isSome := by
  induction cs using hexDecodeChars.induct generalizing b with
  | case1 =>
    cases h
    exact ⟨rfl, by simp⟩
  | case2 => cases h
  | case3 hi lo rest x y hlo hhi ih =>
    rw [hexDecodeChars, hlo, hhi] at h
    obtain ⟨tail, htail, rfl⟩ := Option.map_eq_some_iff.mp h
    obtain ⟨hlen, hdigits⟩ := ih htail
    refine ⟨by simp [hlen, Nat.mul_succ], ?_⟩
    intro c hc
    rcases List.mem_cons.mp hc with rfl | hc
    · rw [hhi]
      rfl
    · rcases List.mem_cons.mp hc with rfl | hc
      · rw [hlo]
        rfl
      · exact hdigits c hc
  | case4 hi lo rest hnone =>
    rw [hexDecodeChars] at h
    split at h
    · rename_i x y hx hy
      exact absurd hy (hnone x y hx)
    · cases h

theorem hexKey_of_decode {key : String} {b : Bytes} (h : hexDecode key = some b)
    (hb : b.length = 32) : HexKey key := by
  obtain ⟨hlen, hdigits⟩ := hexDecodeChars_digits h
  exact ⟨by omega, hdigits⟩

theorem hexValue_ascii {c : Char} (h : (hexValue c).isSome) : 48 ≤ c.toNat ∧ c.toNat ≤ 102 := by
  have hle : ∀ a b : Char, a ≤ b ↔ a.toNat ≤ b.toNat := fun _ _ => Iff.rfl
  rw [hexValue] at h
  simp only [hle] at h
  have h0 : '0'.toNat = 48 := rfl
  have h9 : '9'.toNat = 57 := rfl
  have ha : 'a'.toNat = 97 := rfl
  have hf : 'f'.toNat = 102 := rfl
  have hA : 'A'.toNat = 65 := rfl
  have hF : 'F'.toNat = 70 := rfl
  split_ifs at h <;> first | omega | cases h

theorem hexValue_not_space {c : Char} (h : (hexValue c).isSome) : isWhitespace c = false := by
  have hr := hexValue_ascii h
  simp only [isWhitespace, Bool.or_eq_false_iff, Bool.and_eq_false_iff, decide_eq_false_iff_not]
  omega

theorem HexKey.free {key : String} (h : HexKey key) {c : Char} (hc : hexValue c = none) :
    Free c key := by
  intro hm
  have hd := h.digits c hm
  rw [hc] at hd
  cases hd

theorem HexKey.trim {key : String} (h : HexKey key) : trim key = key :=
  trim_eq_self fun c hc => hexValue_not_space (h.digits c hc)

theorem HexKey.ne {key text : String} (h : HexKey key) (ht : text.toList.length ≠ 64) :
    key ≠ text := by
  rintro rfl
  exact ht h.length

theorem HexKey.plain {key : String} (h : HexKey key) : Plain key :=
  ⟨h.ne (by decide), h.ne (by decide), h.ne (by decide)⟩

theorem containsText_free {s t : String} {c : Char} (hs : Free c s) (ht : c ∈ t.toList) :
    containsText s t = false := by
  rw [containsText, List.any_eq_false]
  intro cs hcs hp
  obtain ⟨rest, hrest⟩ := List.isPrefixOf_iff_prefix.mp hp
  have hsuffix := (List.mem_tails _ _).mp hcs
  refine hs (hsuffix.subset ?_)
  rw [← hrest]
  exact List.mem_append_left _ ht

theorem safePathSegment_hexKey {key : String} (h : HexKey key) : safePathSegment key = key := by
  have hplain : isPlainName key = true :=
    isPlainName_iff.mpr ⟨h.ne (by decide), h.ne (by decide), h.free (by decide), h.free (by decide)⟩
  have hdot : Free '.' key := h.free (by decide)
  have hdots : containsText key ".." = false := containsText_free hdot (by decide)
  simp [safePathSegment, h.trim, hplain, hdots]

theorem trimSuffix_append (s t : String) : trimSuffix (s ++ t) t = s := by
  have he : endsWith (s ++ t) t = true := by
    rw [endsWith, List.isSuffixOf_iff_suffix, String.toList_append]
    exact List.suffix_append _ _
  simp [trimSuffix, stripSuffix, he, String.toList_append]

theorem trimSlashes_free {s : String} (h : Free '/' s) : trimSlashes s = s := by
  have hdrop : ∀ cs : List Char, '/' ∉ cs → cs.dropWhile (· = '/') = cs := by
    intro cs hcs
    cases cs with
    | nil => rfl
    | cons c cs =>
      have hc : c ≠ '/' := fun he => hcs (he ▸ List.mem_cons_self)
      exact List.dropWhile_cons_of_neg (by simpa using hc)
  rw [trimSlashes, hdrop _ h, hdrop _ (fun hm => h (List.mem_reverse.mp hm)), List.reverse_reverse,
    String.ofList_toList]

def listUrl (issuer : String) : String := "/revocations/" ++ issuer ++ "/revocations.json"

theorem revocationIssuerFromPath_listUrl {key : String} (h : HexKey key) :
    revocationIssuerFromPath (listUrl key) = key := by
  have hslash : Free '/' key := h.free (by decide)
  have hkey : (decide (key = "") || decide ('/' ∈ key.toList)) = false :=
    Bool.or_eq_false_iff.mpr ⟨decide_eq_false h.plain.1, decide_eq_false hslash⟩
  simp only [revocationIssuerFromPath, listUrl, String.append_assoc, stripPrefix_append,
    Option.getD_some, trimSuffix_append, trimSlashes_free hslash]
  rw [hkey, if_neg Bool.false_ne_true, safePathSegment_hexKey h]

/-- The files outside of `paths` are as they were. -/
def WritesOnly (paths : List Path) (files files' : Files) : Prop :=
  ∀ p ∉ paths, files'.lookup p = files.lookup p

theorem WritesOnly.refl (paths : List Path) (files : Files) : WritesOnly paths files files :=
  fun _ _ => rfl

theorem WritesOnly.trans {paths : List Path} {a b c : Files} (h : WritesOnly paths a b)
    (h' : WritesOnly paths b c) : WritesOnly paths a c :=
  fun p hp => (h' p hp).trans (h p hp)

theorem WritesOnly.mono {paths paths' : List Path} {a b : Files} (h : WritesOnly paths a b)
    (hs : paths ⊆ paths') : WritesOnly paths' a b :=
  fun p hp => h p fun hm => hp (hs hm)

theorem writesOnly_replaced {succeeds spoils : Prop} {scratch : List Path} {dest : Path}
    {files : Files} {new : Bytes} {result : GoResult Unit × Files}
    (h : Replaced succeeds spoils scratch dest files new result) :
    WritesOnly (dest :: scratch) files result.2 := by
  intro p hp
  rw [List.mem_cons, not_or] at hp
  exact h.other p hp.2 hp.1

variable {C G X cfg} {env : Env} {authorization : String} {body : Bytes} {reg : Registry}

theorem writesOnly_staged {paths : List Path} (ht : cfg.uploadPath env.upload ∈ paths) :
    WritesOnly paths reg.files (staged cfg env body reg).files := by
  intro p hp
  apply AList.lookup_insert_ne
  rintro rfl
  exact hp ht

theorem writesOnly_withUpload {limit : ℕ} {next : ℕ → Registry → Response × Registry}
    {paths : List Path} (ht : cfg.uploadPath env.upload ∈ paths)
    (h : WritesOnly paths (staged cfg env body reg).files
      (next body.length (staged cfg env body reg)).2.files) :
    WritesOnly paths reg.files (withUpload cfg env body limit reg next).2.files := by
  have hne : ∀ p ∉ paths, p ≠ cfg.uploadPath env.upload := by
    rintro p hp rfl
    exact hp ht
  unfold withUpload
  dsimp only
  split
  · rename_i e files he
    intro p hp
    have ho : (stageUpload env.stage (cfg.uploadPath env.upload) body limit reg.files).2.lookup p =
        reg.files.lookup p := stageUpload_other (hne p hp)
    rw [he] at ho
    exact ho
  · rename_i n files he
    obtain ⟨-, -, rfl, rfl⟩ := stageUpload_ok.mp he
    refine (writesOnly_staged ht).trans (h.trans ?_)
    intro p hp
    exact removeQuietly_other (hne p hp)

/-- The paths that the request for the artifact `name` may write. -/
def artifactWrites (cfg : Config) (env : Env) (name : String) : List Path :=
  [cfg.artifactPath name, cfg.uploadPath env.upload,
    backupPath (cfg.artifactPath name) env.numbers.nanos, cfg.indexPath] ++
      saveScratch cfg env.numbers.save

theorem writesOnly_commit (capsule : Capsule) {name : String} (hn : ext name = ".qcap") :
    WritesOnly (artifactWrites cfg env name) (staged cfg env body reg).files
      (commitArtifact X cfg env.commit env.numbers (cfg.uploadPath env.upload)
        (cfg.artifactPath name) capsule (staged cfg env body reg)).2.files := by
  have htemp : (staged cfg env body reg).files.lookup (cfg.uploadPath env.upload) = some body :=
    staged_upload
  have hspec := replaceUpload_spec env.commit.replace env.numbers.nanos (artifact_tracked hn) htemp
  have hdest := writesOnly_replaced hspec
  have hsub : [cfg.artifactPath name, cfg.uploadPath env.upload,
      backupPath (cfg.artifactPath name) env.numbers.nanos] ⊆ artifactWrites cfg env name := by
    intro p hp
    simp only [artifactWrites, List.mem_append, List.mem_cons, List.not_mem_nil, or_false] at hp ⊢
    tauto
  have hsaved : cfg.indexPath :: saveScratch cfg env.numbers.save ⊆
      artifactWrites cfg env name := by
    intro p hp
    simp only [artifactWrites, List.mem_append, List.mem_cons, List.not_mem_nil, or_false] at hp ⊢
    tauto
  unfold commitArtifact
  split
  · rename_i e files he
    rw [he] at hdest
    exact hdest.mono hsub
  · rename_i files he
    rw [he] at hdest
    have hsave := saveIndexLocked_spec X cfg env.commit.save env.numbers.save
      (SortedIndex.upsert Capsule.name keepCreatedAt capsule reg.index) files
    exact (hdest.mono hsub).trans ((writesOnly_replaced hsave).mono hsaved)

theorem writesOnly_publish {rawName name : String} (hname : artifactName rawName = some name) :
    WritesOnly (artifactWrites cfg env name) reg.files
      (publish C G X cfg env authorization rawName body reg).2.files := by
  have ht : cfg.uploadPath env.upload ∈ artifactWrites cfg env name := by simp [artifactWrites]
  rw [publish, hname]
  split
  · exact WritesOnly.refl _ _
  · apply writesOnly_withUpload ht
    dsimp only
    split
    · exact WritesOnly.refl _ _
    · split
      · exact WritesOnly.refl _ _
      · rename_i digest hd
        have hcommit : WritesOnly (artifactWrites cfg env name) (staged cfg env body reg).files
            (commitArtifact X cfg env.commit env.numbers (cfg.uploadPath env.upload)
              (cfg.artifactPath name) (artifactCapsule name body.length digest env.now)
              (staged cfg env body reg)).2.files :=
          writesOnly_commit _ (artifactName_ext hname)
        split
        · rename_i e reg' he
          rw [he] at hcommit
          exact hcommit
        · rename_i reg' he
          rw [he] at hcommit
          exact hcommit

theorem validateRevocationList_own {document : Bytes} {issuer : String}
    (h : validateRevocationList C G document issuer = .ok ()) :
    HexKey issuer ∧ ∃ list, G.unmarshalRevocations document = .ok list ∧
      list.publicKey = issuer := by
  simp only [validateRevocationList, bind_ok, wrap_ok, failIf_ok, decodeBytes_ok, not_not] at h
  obtain ⟨list, hlist, -, -, -, -, -, hissuer, publicKey, hkey, -⟩ := h
  rw [hissuer] at hkey
  exact ⟨hexKey_of_decode hkey publicKey.property, list, hlist, hissuer⟩

def listWrites (cfg : Config) (env : Env) (issuer : String) : List Path :=
  [cfg.revocationPath issuer, cfg.uploadPath env.upload,
    backupPath (cfg.revocationPath issuer) env.numbers.nanos]

/-- What an upload to the list of `issuer` does: nothing but the temporary file, or it is that
issuer's own list. -/
structure ListUpload (C : Primitives) (G : GoLib) (cfg : Config) (env : Env) (issuer : String)
    (body : Bytes) (reg : Registry) (answer : Response × Registry) : Prop where
  index : answer.2.index = reg.index
  refused : validateRevocationList C G body issuer ≠ .ok () →
    answer.1.Refuses ∧ WritesOnly [cfg.uploadPath env.upload] reg.files answer.2.files
  writes : WritesOnly (listWrites cfg env issuer) reg.files answer.2.files
  created : ∀ document, answer.1 = .revocationsCreated document →
    document.issuer = issuer ∧ document.path = listUrl issuer

theorem uploadError_refuses (e : StageError) : (uploadError e).Refuses := by
  cases e <;> exact trivial

theorem refuses_not_created {r : Response} (h : r.Refuses)
    (document : RevocationDocument) : r ≠ .revocationsCreated document := by
  rintro rfl
  exact h

theorem ListUpload.withUpload {issuer : String} {limit : ℕ}
    {next : ℕ → Registry → Response × Registry}
    (h : ListUpload C G cfg env issuer body (staged cfg env body reg)
      (next body.length (staged cfg env body reg))) :
    ListUpload C G cfg env issuer body reg (withUpload cfg env body limit reg next) where
  index := by
    unfold RegistryPublish.withUpload
    dsimp only
    split
    · rfl
    · rename_i n files he
      obtain ⟨-, -, rfl, rfl⟩ := stageUpload_ok.mp he
      exact h.index
  refused hv := by
    obtain ⟨hrefuses, hwrites⟩ := h.refused hv
    refine ⟨?_, writesOnly_withUpload List.mem_cons_self hwrites⟩
    unfold RegistryPublish.withUpload
    dsimp only
    split
    · exact uploadError_refuses _
    · rename_i n files he
      obtain ⟨-, -, rfl, rfl⟩ := stageUpload_ok.mp he
      exact hrefuses
  writes := writesOnly_withUpload (by simp [listWrites]) h.writes
  created document hd := by
    unfold RegistryPublish.withUpload at hd
    dsimp only at hd
    split at hd
    · exact absurd hd (refuses_not_created (uploadError_refuses _) document)
    · rename_i n files he
      obtain ⟨-, -, rfl, rfl⟩ := stageUpload_ok.mp he
      exact h.created document hd

theorem listUpload_refused {issuer text : String} {status : ℕ} :
    ListUpload C G cfg env issuer body reg (.error status text, reg) where
  index := rfl
  refused _ := ⟨trivial, WritesOnly.refl _ _⟩
  writes := WritesOnly.refl _ _
  created _ h := nomatch h

theorem publishRevocations_upload (issuer : String) :
    ListUpload C G cfg env issuer body reg
      (publishRevocations C G cfg env authorization issuer body reg) := by
  rw [publishRevocations]
  split
  · exact listUpload_refused
  · apply ListUpload.withUpload
    dsimp only
    split
    · exact listUpload_refused
    · rename_i hvalid
      obtain ⟨document, hread, hlist⟩ := bind_ok.mp hvalid
      obtain ⟨-, rfl⟩ := readFile_staged_ok.mp hread
      split
      · exact listUpload_refused
      · have htemp : (staged cfg env document reg).files.lookup (cfg.uploadPath env.upload) =
            some document := staged_upload
        have hspec := writesOnly_replaced (replaceUpload_spec env.commit.replace env.numbers.nanos
          (Tracked.revocations issuer) htemp)
        split
        · rename_i e files he
          rw [he] at hspec
          refine ⟨rfl, absurd hlist, hspec, ?_⟩
          intro doc hdoc
          cases hdoc
        · rename_i files he
          rw [he] at hspec
          refine ⟨rfl, absurd hlist, hspec, ?_⟩
          intro doc hdoc
          cases hdoc
          exact ⟨rfl, rfl⟩

structure StoredList (G : GoLib) (cfg : Config) (issuer : String) (body : Bytes) : Prop where
  key : HexKey issuer
  own : ∃ list, G.unmarshalRevocations body = .ok list ∧ list.publicKey = issuer
  stored : joinPath cfg.storeDir ["revocations", issuer, "revocations.json"] =
    cfg.revocationPath issuer
  path_clean : cleanPath (listUrl issuer) = listUrl issuer
  requested : revocationIssuerFromPath (listUrl issuer) = issuer

theorem listUrl_names {issuer : String} (hkey : HexKey issuer) :
    ∀ n ∈ ["revocations", issuer, "revocations.json"], Plain n ∧ Free '/' n := by
  intro n hn
  simp only [List.mem_cons, List.not_mem_nil, or_false] at hn
  rcases hn with rfl | rfl | rfl
  · exact ⟨⟨by decide, by decide, by decide⟩, by decide⟩
  · exact ⟨hkey.plain, hkey.free (by decide)⟩
  · exact ⟨⟨by decide, by decide, by decide⟩, by decide⟩

theorem listUrl_clean {issuer : String} (hkey : HexKey issuer) :
    cleanPath (listUrl issuer) = listUrl issuer := by
  have hurl : "/" ++ joinWith '/' ["revocations", issuer, "revocations.json"] =
      listUrl issuer := by
    have hhead : "/revocations/" = "/" ++ ("revocations" ++ String.singleton '/') := by decide
    have htail : "/revocations.json" = String.singleton '/' ++ "revocations.json" := by decide
    rw [joinWith_cons_cons, joinWith_cons_cons, joinWith_singleton, listUrl, hhead, htail]
    simp only [String.append_assoc]
  rw [← hurl]
  exact cleanPath_rooted (by simp) (listUrl_names hkey)

theorem storedList_of_valid {issuer : String}
    (h : validateRevocationList C G body issuer = .ok ()) : StoredList G cfg issuer body := by
  obtain ⟨hkey, hown⟩ := validateRevocationList_own h
  exact ⟨hkey, hown, joinPath_plain cfg.storeDir (listUrl_names hkey), listUrl_clean hkey,
    revocationIssuerFromPath_listUrl hkey⟩

structure PublishesArtifact (cfg : Config) (env : Env) (rawName : String) (reg : Registry)
    (answer : Response × Registry) : Prop where
  refused : artifactName rawName = none → answer.2 = reg ∧
    (answer.1 = .error 400 "invalid artifact name" ∨ answer.1 = .error 401 "unauthorized")
  stored : ∀ name, artifactName rawName = some name → StoredName cfg name ∧
    WritesOnly (artifactWrites cfg env name) reg.files answer.2.files

structure PublishesList (G : GoLib) (cfg : Config) (env : Env) (issuer : String) (body : Bytes)
    (reg : Registry) (answer : Response × Registry) : Prop where
  index : answer.2.index = reg.index
  stored : (answer.1.Refuses ∧ WritesOnly [cfg.uploadPath env.upload] reg.files answer.2.files) ∨
    (StoredList G cfg issuer body ∧
      WritesOnly (listWrites cfg env issuer) reg.files answer.2.files)
  created : ∀ document, answer.1 = .revocationsCreated document →
    document.issuer = issuer ∧ document.path = listUrl issuer

def NamesAgree (G : GoLib) (cfg : Config) (env : Env) (r : Request) (reg : Registry)
    (answer : Response × Registry) : Prop :=
  match r.target with
  | .artifact rawName => PublishesArtifact cfg env rawName reg answer
  | .revocations urlPath =>
    PublishesList G cfg env (revocationIssuerFromPath urlPath) r.body reg answer

theorem publish_artifact (rawName : String) :
    PublishesArtifact cfg env rawName reg
      (publish C G X cfg env authorization rawName body reg) where
  refused hname := by
    rw [publish, hname]
    split
    · exact ⟨rfl, Or.inr rfl⟩
    · exact ⟨rfl, Or.inl rfl⟩
  stored _ hname := ⟨artifactName_stored cfg hname, writesOnly_publish hname⟩

theorem publish_list (issuer : String) :
    PublishesList G cfg env issuer body reg
      (publishRevocations C G cfg env authorization issuer body reg) := by
  have h : ListUpload C G cfg env issuer body reg
      (publishRevocations C G cfg env authorization issuer body reg) :=
    publishRevocations_upload issuer
  refine ⟨h.index, ?_, h.created⟩
  by_cases hv : validateRevocationList C G body issuer = .ok ()
  · exact Or.inr ⟨storedList_of_valid hv, h.writes⟩
  · exact Or.inl (h.refused hv)

variable (C G X cfg)

/-- Every POST request stores what it stores under a name that a GET resolves to, in one place
of the store. -/
theorem post_names_agree (env : Env) (r : Request) (reg : Registry) :
    NamesAgree G cfg env r reg (post C G X cfg env r reg) := by
  obtain ⟨target, authorization, body⟩ := r
  cases target with
  | artifact rawName => exact publish_artifact rawName
  | revocations urlPath =>
    rw [NamesAgree, post]
    dsimp only
    split
    · refine ⟨rfl, Or.inl ⟨trivial, WritesOnly.refl _ _⟩, ?_⟩
      intro document h
      cases h
    · exact publish_list _

end QCap.RegistryNames
