import QCap.FaultyExport
import QCap.PlainExport
import QCap.SealRoundTrip

/-!
# Failed exports

An open that fails leaves every payload file as it was exactly when its export does not fail
after it changed one. Which file it fails at depends on the archive, the output directory and
the faults of the host.
-/
namespace QCap.ExportFaults

open QCap.Text QCap.PathTree QCap.Crypto QCap.Formats QCap.Signatures QCap.Capability
open QCap.Identity QCap.Archive QCap.OpenArchive
open QCap.FaultyExport hiding openArchive
open PlainExport SealRoundTrip

variable (C : Primitives) (J : JsonCodec)

/-- Where the run of the turns fails, the output directory already had what was written. -/
def HarmlessFaults (out : Tree) (turns : List Turn) : Prop :=
  ∀ writes, FailsAt out turns writes → Held out writes

theorem failed_open_exposes_nothing_iff (faults : ExportFaults) (r : OpenRequest) (out : Tree) :
    (∀ e out', FaultyExport.openArchive C J faults r out = (.error e, out') →
        ∀ p, out'.read p = out.read p) ↔
      ∀ cap report turns, r.cap = .ok cap → Unrevoked C r cap report →
        Starts C J faults r cap report turns → HarmlessFaults out turns := by
  constructor
  · intro h cap report turns hc hu hs writes hfails
    obtain ⟨e, out', m, hrun, -, -⟩ := hfails.run 0
    have hopen := hs.run hc hu out
    rw [hrun] at hopen
    exact (hfails.held_iff hrun).mpr (h e out' hopen)
  · intro h e out' hopen p
    by_cases hstarts : ∃ cap report turns, r.cap = .ok cap ∧ Starts C J faults r cap report turns ∧
        Unrevoked C r cap report
    · obtain ⟨cap, report, turns, hc, hs, hu⟩ := hstarts
      rw [hs.run hc hu] at hopen
      rcases passed_or_fails out turns with ⟨writes, hpassed⟩ | ⟨writes, hfails⟩
      · -- the run passes, so there was nothing to export
        have hstop := hpassed.nil_of_error (e := e) (by rw [hopen])
        subst hstop
        cases hopen
        rfl
      · obtain ⟨e', out'', m, hrun, -, -⟩ := hfails.run 0
        rw [hrun] at hopen
        cases hopen
        exact (hfails.held_iff hrun).mp (h cap report turns hc hu hs writes hfails) p
    · have hrefused : ∀ cap report turns, r.cap = .ok cap →
          Starts C J faults r cap report turns → ¬ Unrevoked C r cap report :=
        fun cap report turns hc hs hu => hstarts ⟨cap, report, turns, hc, hs, hu⟩
      obtain ⟨e', hend⟩ := openArchive_refused hrefused out
      cases hend.symm.trans hopen
      rfl

def everyToken : CapabilityToken :=
  CapabilityToken.grant toy (plainManifest toy twoFiles).merkleRoot
    (allowSpec "read" "*" (identityId issuerFile)) "unix-seconds:1800000000" signerKey

def everyOpen : OpenRequest :=
  openAs (plainArchive toy twoFiles) everyToken issuerFile noPassphrase 1760000000

def occupiedOut : Tree := (writeUnder Tree.empty "b/x" [9]).2

theorem everyOpen_authorized :
    authorize toy (plainCodec toy twoFiles) everyOpen =
      .ok (plainReport toy twoFiles 2, issuerFile, ⟨"read", "*", identityId issuerFile⟩) := by
  have hv := (verifyArchive_ok _ _).mpr ⟨_, _, twoFiles_verified toy (toy_signatureCorrect _ _)⟩
  have hcap : CapabilityToken.verify toy everyToken = .ok () :=
    verify_grant toy (toy_signatureCorrect _ _)
  refine (authorize_ok _ _).mpr ⟨everyToken, none, rfl, ⟨hv, rfl, hcap, rfl, ?_⟩, rfl, rfl⟩
  have hparse : Access.parse (allowSpec "read" "*" (identityId issuerFile)) =
      .ok ⟨"read", "*", identityId issuerFile⟩ :=
    (parse_allowSpec_ok (by decide) (by decide) (by decide)).mpr ⟨by decide, rfl⟩
  exact ⟨hparse, rfl, rfl, rfl, by decide⟩

/-- Nothing but the directory is in the way: the open fails at its second file and leaves the
first one behind. -/
theorem failed_open_exposes_file :
    (FaultyExport.openArchive toy (plainCodec toy twoFiles) .none everyOpen occupiedOut).1 =
        .error .fileSystem ∧
      occupiedOut.read ["a"] = none ∧
      (FaultyExport.openArchive toy (plainCodec toy twoFiles) .none everyOpen occupiedOut).2.read
        ["a"] = some [1] := by
  rw [openArchive_none, OpenArchive.openArchive, everyOpen_authorized]
  exact ⟨by decide +kernel, by decide +kernel, by decide +kernel⟩

end QCap.ExportFaults
