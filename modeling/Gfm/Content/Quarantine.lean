import Gfm.Store.Records

/-!
# The quarantine of failed extractions

An extraction that fails is counted under the path and the fingerprint of its file; a success or a
skip clears the count. A file whose count has reached the threshold is not extracted again until
it changes. A key holds the path as it is displayed between numbers, and it can be read back, so
that no file stands under the key of another.
-/

namespace Gfm.Content

open Std Store

section Model

structure ExtractionFingerprint where
  extractorVersion : U32
  len : U64
  modifiedNs : Option U128
  deriving DecidableEq, Repr

def ExtractionFingerprint.cacheKey (fingerprint : ExtractionFingerprint) (path : Text) : Text :=
  'v' :: (Tsv.decimal fingerprint.extractorVersion.val ++ ':' :: (path ++ ':' ::
    (Tsv.decimal fingerprint.len.val ++ ':' ::
      ((fingerprint.modifiedNs.map fun value => Tsv.decimal value.val).getD ['-']))))

inductive ExtractionStatus where
  | extracted
  | skipped (reason : Text)
  | quarantined (reason : Text)
  deriving DecidableEq, Repr

structure ExtractionReport where
  path : Text
  status : ExtractionStatus
  fingerprint : ExtractionFingerprint
  deriving DecidableEq, Repr

inductive QuarantineFailureKind where
  | corrupt
  | encrypted
  | crash
  | timeout
  deriving DecidableEq, Repr

structure QuarantineEntry where
  path : Text
  cacheKey : Text
  kind : QuarantineFailureKind
  reason : Text
  failures : U32
  deriving DecidableEq, Repr

inductive QuarantineDecision where
  | allow
  | quarantined (entry : QuarantineEntry)
  deriving DecidableEq, Repr

structure ExtractionQuarantine where
  failureThreshold : U32
  entries : ExtTreeMap Text QuarantineEntry

def saturatingSucc (count : U32) : U32 :=
  if room : count.val + 1 < 2 ^ 32 then ⟨count.val + 1, room⟩ else count

theorem val_saturatingSucc (count : U32) :
    (saturatingSucc count).val = min (count.val + 1) (2 ^ 32 - 1) := by
  have bounded := count.isLt
  rw [saturatingSucc]
  split
  · simp only
    omega
  · omega

/-- `reason.contains("encrypted")`. -/
def reportFailureKind (reason : Text) : QuarantineFailureKind :=
  if reason.tails.any fun rest => "encrypted".toList.isPrefixOf rest then .encrypted else .corrupt

namespace ExtractionQuarantine

def new (failureThreshold : U32) : ExtractionQuarantine := ⟨max failureThreshold 1, ∅⟩

variable (quarantine : ExtractionQuarantine)

def beforeExtract (path : Text) (fingerprint : ExtractionFingerprint) : QuarantineDecision :=
  match quarantine.entries[fingerprint.cacheKey path]? with
  | some entry =>
      if quarantine.failureThreshold ≤ entry.failures then .quarantined entry else .allow
  | none => .allow

def recordFailureKey (path key : Text) (kind : QuarantineFailureKind) (reason : Text) :
    ExtractionQuarantine × QuarantineDecision :=
  let entry := (quarantine.entries[key]?).getD ⟨path, key, kind, reason, 0⟩
  let entry := { entry with kind, reason, failures := saturatingSucc entry.failures }
  ({ quarantine with entries := quarantine.entries.insert key entry },
    if quarantine.failureThreshold ≤ entry.failures then .quarantined entry else .allow)

def recordReport (report : ExtractionReport) : ExtractionQuarantine × QuarantineDecision :=
  let key := report.fingerprint.cacheKey report.path
  match report.status with
  | .quarantined reason =>
      quarantine.recordFailureKey report.path key (reportFailureKind reason) reason
  | .extracted => ({ quarantine with entries := quarantine.entries.erase key }, .allow)
  | .skipped _ => ({ quarantine with entries := quarantine.entries.erase key }, .allow)

def recordReports (reports : List ExtractionReport) : ExtractionQuarantine :=
  reports.foldl (fun quarantine report => (quarantine.recordReport report).1) quarantine

end ExtractionQuarantine

end Model

section Keys

theorem append_cons_inj {separator : Char} {left left' right right' : Text}
    (free : separator ∉ left) (free' : separator ∉ left')
    (same : left ++ separator :: right = left' ++ separator :: right') :
    left = left' ∧ right = right' := by
  induction left generalizing left' with
  | nil =>
      cases left' with
      | nil => exact ⟨rfl, (List.cons.inj same).2⟩
      | cons char left' => exact absurd (List.cons.inj same).1 (List.ne_of_not_mem_cons free')
  | cons char left ih =>
      cases left' with
      | nil => exact absurd (List.cons.inj same).1.symm (List.ne_of_not_mem_cons free)
      | cons char' left' =>
          simp only [List.mem_cons, not_or] at free free'
          rcases List.cons.inj same with ⟨rfl, rest⟩
          rcases ih free.2 free'.2 rest with ⟨rfl, rfl⟩
          exact ⟨rfl, rfl⟩

theorem append_cons_inj_last {separator : Char} {left left' right right' : Text}
    (free : separator ∉ right) (free' : separator ∉ right')
    (same : left ++ separator :: right = left' ++ separator :: right') :
    left = left' ∧ right = right' := by
  have reversed : right.reverse ++ separator :: left.reverse =
      right'.reverse ++ separator :: left'.reverse := by
    simpa using congrArg List.reverse same
  have parts := append_cons_inj (by simpa using free) (by simpa using free') reversed
  simpa [and_comm] using parts

theorem decimal_inj {left right : Nat} (same : Tsv.decimal left = Tsv.decimal right) :
    left = right := by
  have here := Tsv.parseUnsigned_decimal (show left < left + right + 1 by omega)
  have there := Tsv.parseUnsigned_decimal (show right < left + right + 1 by omega)
  rw [same, there] at here
  exact (Except.ok.inj here).symm

theorem isDigit_decimal (number : Nat) : ∀ char ∈ Tsv.decimal number, char.isDigit = true := by
  rcases Tsv.decimal_eq number with ⟨digits, -, small, -, shape⟩
  intro char member
  rw [shape, List.mem_reverse] at member
  rcases List.mem_map.mp member with ⟨digit, listed, rfl⟩
  have bound := small digit listed
  clear member listed
  revert digit
  decide

theorem colon_not_mem_decimal (number : Nat) : ':' ∉ Tsv.decimal number := fun member =>
  absurd (isDigit_decimal number ':' member) (by decide)

def modifiedText (modifiedNs : Option U128) : Text :=
  (modifiedNs.map fun value => Tsv.decimal value.val).getD ['-']

theorem colon_not_mem_modifiedText (modifiedNs : Option U128) : ':' ∉ modifiedText modifiedNs := by
  cases modifiedNs with
  | none => decide
  | some value => exact colon_not_mem_decimal value.val

theorem modifiedText_inj {left right : Option U128}
    (same : modifiedText left = modifiedText right) : left = right := by
  have undated : ∀ value : U128, modifiedText (some value) ≠ ['-'] := by
    intro value dash
    have digit := isDigit_decimal value.val '-' (by
      rw [show Tsv.decimal value.val = ['-'] from dash]
      exact List.mem_singleton_self _)
    exact absurd digit (by decide)
  cases left with
  | none =>
      cases right with
      | none => rfl
      | some value => exact absurd same.symm (undated value)
  | some left =>
      cases right with
      | none => exact absurd same (undated left)
      | some right => exact congrArg some (Fin.ext (decimal_inj same))

/-- The path of a key may hold any colons: the version ends at the first one of the key, and the
length and the time are behind the last two. -/
theorem cacheKey_inj {fingerprint other : ExtractionFingerprint} {path otherPath : Text}
    (same : fingerprint.cacheKey path = other.cacheKey otherPath) :
    fingerprint = other ∧ path = otherPath := by
  rcases fingerprint with ⟨version, len, modifiedNs⟩
  rcases other with ⟨otherVersion, otherLen, otherModifiedNs⟩
  rcases append_cons_inj (colon_not_mem_decimal version.val)
    (colon_not_mem_decimal otherVersion.val) (List.cons.inj same).2 with ⟨versions, rest⟩
  have regrouped : (path ++ ':' :: Tsv.decimal len.val) ++ ':' :: modifiedText modifiedNs =
      (otherPath ++ ':' :: Tsv.decimal otherLen.val) ++ ':' :: modifiedText otherModifiedNs := by
    simpa [modifiedText] using rest
  rcases append_cons_inj_last (colon_not_mem_modifiedText modifiedNs)
    (colon_not_mem_modifiedText otherModifiedNs) regrouped with ⟨front, times⟩
  rcases append_cons_inj_last (colon_not_mem_decimal len.val)
    (colon_not_mem_decimal otherLen.val) front with ⟨paths, lengths⟩
  obtain rfl := Fin.ext (decimal_inj versions)
  obtain rfl := Fin.ext (decimal_inj lengths)
  obtain rfl := modifiedText_inj times
  exact ⟨rfl, paths⟩

end Keys

section History

def ExtractionStatus.isFailure : ExtractionStatus → Bool
  | .quarantined _ => true
  | _ => false

/-- The failures among the reports for the path and the fingerprint since the last one that is
not a failure. -/
def failuresSince (path : Text) (fingerprint : ExtractionFingerprint)
    (reports : List ExtractionReport) : Nat :=
  ((reports.filter fun report => report.path = path ∧ report.fingerprint = fingerprint).reverse
    |>.takeWhile fun report => report.status.isFailure).length

variable {path : Text} {fingerprint : ExtractionFingerprint}

theorem failuresSince_concat (reports : List ExtractionReport) (report : ExtractionReport) :
    failuresSince path fingerprint (reports ++ [report]) =
      if report.path = path ∧ report.fingerprint = fingerprint then
        if report.status.isFailure then failuresSince path fingerprint reports + 1 else 0
      else failuresSince path fingerprint reports := by
  by_cases own : report.path = path ∧ report.fingerprint = fingerprint
  · by_cases failed : report.status.isFailure = true
    · simp [failuresSince, own, failed]
    · simp [failuresSince, own, failed]
  · simp [failuresSince, own]

def QuarantineDecision.isQuarantined : QuarantineDecision → Bool
  | .quarantined _ => true
  | .allow => false

namespace ExtractionQuarantine

variable (quarantine : ExtractionQuarantine)

/-- The failures that are counted under a key. -/
def failuresAt (key : Text) : Nat := ((quarantine.entries[key]?).map (·.failures.val)).getD 0

theorem isQuarantined_beforeExtract (positive : 1 ≤ quarantine.failureThreshold.val) :
    (quarantine.beforeExtract path fingerprint).isQuarantined = true ↔
      quarantine.failureThreshold.val ≤ quarantine.failuresAt (fingerprint.cacheKey path) := by
  rw [beforeExtract, failuresAt]
  cases quarantine.entries[fingerprint.cacheKey path]? with
  | none =>
      simp only [QuarantineDecision.isQuarantined, Option.map_none, Option.getD_none]
      simp
      omega
  | some entry =>
      by_cases reached : quarantine.failureThreshold ≤ entry.failures
      · simp [reached, QuarantineDecision.isQuarantined]
      · simp [reached, QuarantineDecision.isQuarantined]

theorem failureThreshold_recordReport (report : ExtractionReport) :
    (quarantine.recordReport report).1.failureThreshold = quarantine.failureThreshold := by
  rw [recordReport]
  cases report.status <;> rfl

/-- A report changes nothing under the other keys. -/
theorem getElem?_recordReport_of_ne {report : ExtractionReport} {key : Text}
    (other : report.fingerprint.cacheKey report.path ≠ key) :
    (quarantine.recordReport report).1.entries[key]? = quarantine.entries[key]? := by
  rw [recordReport]
  cases report.status with
  | quarantined reason =>
      simp [recordFailureKey, ExtTreeMap.getElem?_insert, other]
  | extracted => simp [ExtTreeMap.getElem?_erase, other]
  | skipped reason => simp [ExtTreeMap.getElem?_erase, other]

theorem failuresAt_recordReport_self (report : ExtractionReport) :
    (quarantine.recordReport report).1.failuresAt (report.fingerprint.cacheKey report.path) =
      if report.status.isFailure then
        min (quarantine.failuresAt (report.fingerprint.cacheKey report.path) + 1) (2 ^ 32 - 1)
      else 0 := by
  rw [recordReport]
  cases report.status with
  | extracted => simp [failuresAt, ExtractionStatus.isFailure]
  | skipped reason => simp [failuresAt, ExtractionStatus.isFailure]
  | quarantined reason =>
      simp only [recordFailureKey, failuresAt, ExtTreeMap.getElem?_insert_self,
        ExtractionStatus.isFailure, Option.map_some, Option.getD_some, if_true, val_saturatingSucc]
      cases quarantine.entries[report.fingerprint.cacheKey report.path]? with
      | none => rfl
      | some entry => rfl

theorem failureThreshold_recordReports (reports : List ExtractionReport) :
    (quarantine.recordReports reports).failureThreshold = quarantine.failureThreshold := by
  induction reports generalizing quarantine with
  | nil => rfl
  | cons report reports ih => exact (ih _).trans (quarantine.failureThreshold_recordReport report)

theorem recordReports_concat (reports : List ExtractionReport) (report : ExtractionReport) :
    quarantine.recordReports (reports ++ [report]) =
      ((quarantine.recordReports reports).recordReport report).1 := by
  simp [recordReports]

/-- The counts follow the history, up to the largest count. -/
theorem failuresAt_recordReports (threshold : U32) (reports : List ExtractionReport) :
    ((new threshold).recordReports reports).failuresAt (fingerprint.cacheKey path) =
      min (failuresSince path fingerprint reports) (2 ^ 32 - 1) := by
  induction reports using List.reverseRecOn with
  | nil => simp [recordReports, new, failuresAt, failuresSince]
  | append_singleton reports report ih =>
      rw [recordReports_concat, failuresSince_concat]
      by_cases own : report.path = path ∧ report.fingerprint = fingerprint
      · rcases own with ⟨rfl, rfl⟩
        rw [failuresAt_recordReport_self, ih]
        simp only [and_self, if_true]
        split
        · omega
        · rfl
      · have other : report.fingerprint.cacheKey report.path ≠ fingerprint.cacheKey path :=
          fun same => own (cacheKey_inj same).symm
        rw [failuresAt, getElem?_recordReport_of_ne _ other, if_neg own, ← ih, failuresAt]

theorem one_le_threshold (threshold : U32) (reports : List ExtractionReport) :
    ((new threshold).recordReports reports).failureThreshold.val = max threshold.val 1 := by
  rw [failureThreshold_recordReports, new]
  exact Fin.coe_max threshold 1

theorem isQuarantined_recordReports (threshold : U32) (reports : List ExtractionReport) :
    (((new threshold).recordReports reports).beforeExtract path fingerprint).isQuarantined = true ↔
      max threshold.val 1 ≤ failuresSince path fingerprint reports := by
  have value := one_le_threshold threshold reports
  have bounded := threshold.isLt
  rw [isQuarantined_beforeExtract _ (by omega), value, failuresAt_recordReports]
  omega

theorem beforeExtract_recordReport_of_ne {report : ExtractionReport}
    (other : report.path ≠ path) :
    (quarantine.recordReport report).1.beforeExtract path fingerprint =
      quarantine.beforeExtract path fingerprint := by
  have keys : report.fingerprint.cacheKey report.path ≠ fingerprint.cacheKey path :=
    fun same => other (cacheKey_inj same).2
  rw [beforeExtract, beforeExtract, getElem?_recordReport_of_ne quarantine keys,
    failureThreshold_recordReport]

end ExtractionQuarantine

end History

end Gfm.Content
