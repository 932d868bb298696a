import Gfm.Lib.Folds
import Gfm.Store.ManifestRecovery

/-!
# Convergence of the manifest recovery

A recovery that returns should end with a manifest that lists the usable archives, each once; one
that fails should leave the manifest as it was. The writer compares the paths of the entries, the
reader the files that they resolve to.
-/

namespace Gfm.Store

open ArchivePath List

abbrev ManifestEntry.resolved (manifestPath : ArchivePath) (entry : ManifestEntry Text) :
    ArchivePath := ManifestRecovery.resolveManifestPath manifestPath entry.path

namespace ManifestRecovery

open LineLog

section Reading

variable {manifestPath : ArchivePath} {entries : List ContentArchiveManifestEntry}

theorem archiveLine_encodeEntry (number : Nat) (entry : ContentArchiveManifestEntry) :
    archiveLine manifestPath number (encodeEntry entry) =
      .ok (tierName entry.tier, entry.path) := by
  rw [archiveLine, encodeEntry, Tsv.fields_join (plain_parts entry) (cons_ne_nil _ _)]
  simp [Except.map]

theorem not_blank (entry : ContentArchiveManifestEntry) :
    (encodeEntry entry).all isWhitespace = false := by
  have first : (encodeEntry entry).head? = some 'a' := by
    rw [encodeEntry, Tsv.join, intercalate_cons_cons]
    rfl
  cases line : encodeEntry entry with
  | nil =>
      rw [line] at first
      cases first
  | cons char rest =>
      rw [line, head?_cons, Option.some.injEq] at first
      rw [first]
      rfl

theorem readLines_cons (seen : List ArchivePath) (number : Nat)
    (entry : ContentArchiveManifestEntry) (rest : List Bytes) :
    ∃ error, readLines manifestPath seen number (encodeText (encodeEntry entry) :: rest) =
      if entry.resolved manifestPath ∈ seen then .error error
      else (readLines manifestPath (entry.resolved manifestPath :: seen) (number + 1) rest).map
        (entry :: ·) := by
  simp only [readLines, decodeText_encodeText, not_blank, Bool.false_eq_true, if_false,
    archiveLine_encodeEntry, parseTier_tierName]
  exact ⟨_, rfl⟩

/-- Written entries are read back where no two of them are one file, and else not at all. -/
theorem readLines_encoded (seen : List ArchivePath) (number : Nat) :
    ((entries.map (·.resolved manifestPath)).Nodup →
      (∀ entry ∈ entries, entry.resolved manifestPath ∉ seen) →
      readLines manifestPath seen number (entries.map fun entry =>
        encodeText (encodeEntry entry)) = .ok entries) ∧
    (¬((entries.map (·.resolved manifestPath)).Nodup ∧
      ∀ entry ∈ entries, entry.resolved manifestPath ∉ seen) →
      ∃ error, readLines manifestPath seen number (entries.map fun entry =>
        encodeText (encodeEntry entry)) = .error error) := by
  induction entries generalizing seen number with
  | nil => exact ⟨fun _ _ => rfl, fun duplicate => absurd ⟨nodup_nil, nofun⟩ duplicate⟩
  | cons entry entries ih =>
      rcases ih (entry.resolved manifestPath :: seen) (number + 1) with ⟨whole, stops⟩
      rcases @readLines_cons manifestPath seen number entry
        (entries.map fun entry => encodeText (encodeEntry entry)) with ⟨error, read⟩
      have split : ((entry :: entries).map (·.resolved manifestPath)).Nodup ∧
          (∀ other ∈ entry :: entries, other.resolved manifestPath ∉ seen) ↔
          entry.resolved manifestPath ∉ seen ∧ (entries.map (·.resolved manifestPath)).Nodup ∧
            ∀ other ∈ entries,
              other.resolved manifestPath ∉ entry.resolved manifestPath :: seen := by
        simp only [map_cons, nodup_cons, mem_map, mem_cons, forall_eq_or_imp,
          not_or, not_exists, not_and, forall_and]
        tauto
      rw [map_cons (f := fun entry => encodeText (encodeEntry entry)), read]
      constructor
      · intro distinct fresh
        rcases split.mp ⟨distinct, fresh⟩ with ⟨unseen, later⟩
        rw [if_neg unseen, whole later.1 later.2]
        rfl
      · intro duplicate
        by_cases known : entry.resolved manifestPath ∈ seen
        · exact ⟨error, if_pos known⟩
        · rcases stops fun later => duplicate (split.mpr ⟨known, later⟩) with ⟨other, fails⟩
          rw [if_neg known, fails]
          exact ⟨other, rfl⟩

theorem lines_text (manifest : ContentArchiveManifest) :
    lines (ContentArchiveManifest.text manifest) = encodeText contentManifestHeader ::
      manifest.archives.map fun entry => encodeText (encodeEntry entry) := by
  have unbroken : ∀ text ∈ contentManifestHeader :: manifest.archives.map encodeEntry,
      '\n' ∉ text ∧ '\r' ∉ text := by
    intro text listed
    rcases mem_cons.mp listed with rfl | listed
    · decide
    · rcases mem_map.mp listed with ⟨entry, -, rfl⟩
      exact Tsv.unbroken_join (plain_parts entry)
  have split := lines_texts unbroken []
  rw [append_nil, show lines [] = [] from rfl, append_nil, map_cons,
    map_map] at split
  exact split

theorem distinct_of_resolved (distinct : (entries.map (·.resolved manifestPath)).Nodup) :
    (entries.map fun entry => ofText entry.path).Nodup := by
  have through : entries.map (·.resolved manifestPath) =
      (entries.map fun entry => ofText entry.path).map
        (Store.resolveManifestPath manifestPath) := by
    rw [map_map]
    rfl
  rw [through] at distinct
  exact List.Nodup.of_map _ distinct

theorem new_eq_ok (some : entries ≠ [])
    (distinct : (entries.map fun entry => ofText entry.path).Nodup) :
    ContentArchiveManifest.new entries = .ok ⟨entries⟩ :=
  Manifest.new_eq_ok.mpr ⟨some, distinct, rfl⟩

theorem readManifest_text (some : entries ≠ [])
    (distinct : (entries.map (·.resolved manifestPath)).Nodup) :
    readManifest manifestPath (ContentArchiveManifest.text ⟨entries⟩) = .ok ⟨entries⟩ := by
  rw [readManifest, lines_text]
  simp only [decodeText_encodeText, ne_eq, not_true_eq_false, if_false,
    (readLines_encoded [] 2).1 distinct fun _ _ => not_mem_nil]
  exact new_eq_ok some (distinct_of_resolved distinct)

theorem readManifest_duplicate (duplicate : ¬(entries.map (·.resolved manifestPath)).Nodup) :
    ∃ error, readManifest manifestPath (ContentArchiveManifest.text ⟨entries⟩) = .error error := by
  have stops : ¬((entries.map (·.resolved manifestPath)).Nodup ∧
      ∀ entry ∈ entries, entry.resolved manifestPath ∉ ([] : List ArchivePath)) :=
    fun both => duplicate both.1
  rcases (readLines_encoded [] 2).2 stops with ⟨error, fails⟩
  rw [readManifest, lines_text]
  simp only [decodeText_encodeText, ne_eq, not_true_eq_false, if_false, fails]
  exact ⟨error, rfl⟩

/-- What can be read names no file twice. -/
theorem readLines_ok {seen : List ArchivePath} {number : Nat} {rest : List Bytes}
    (read : readLines manifestPath seen number rest = .ok entries) :
    (entries.map (·.resolved manifestPath)).Nodup ∧
      ∀ entry ∈ entries, entry.resolved manifestPath ∉ seen := by
  induction rest generalizing seen number entries with
  | nil =>
      cases read
      exact ⟨nodup_nil, nofun⟩
  | cons line rest ih =>
      rw [readLines] at read
      split at read
      · cases read
      · split at read
        · exact ih read
        · split at read
          · cases read
          · dsimp only at read
            split at read
            · cases read
            · rename_i apart
              split at read
              · cases read
              · cases later : readLines manifestPath (_ :: seen) (number + 1) rest with
                | error error =>
                    rw [later] at read
                    cases read
                | ok found =>
                    rw [later] at read
                    cases read
                    rcases ih later with ⟨distinct, spared⟩
                    constructor
                    · rw [map_cons, nodup_cons]
                      refine ⟨fun listed => ?_, distinct⟩
                      rcases mem_map.mp listed with ⟨other, member, same⟩
                      exact spared other member (same ▸ mem_cons_self)
                    · intro entry member
                      rcases mem_cons.mp member with rfl | member
                      · exact apart
                      · exact fun known => spared entry member (mem_cons_of_mem _ known)

theorem readManifest_ok {content : Bytes} {manifest : ContentArchiveManifest}
    (read : readManifest manifestPath content = .ok manifest) :
    manifest.archives ≠ [] ∧ (manifest.archives.map (·.resolved manifestPath)).Nodup := by
  rw [readManifest] at read
  split at read
  · cases read
  · split at read
    · cases read
    · split at read
      · cases read
      · cases found : readLines manifestPath [] 2 _ with
        | error error =>
            rw [found] at read
            cases read
        | ok archives =>
            rw [found] at read
            rcases Manifest.new_eq_ok.mp read with ⟨some, -, rfl⟩
            exact ⟨some, (readLines_ok found).1⟩

end Reading

section Classifying

variable {report : Bytes → String} {manifestPath : ArchivePath} {disk : Disk}
  {archives : List ContentArchiveManifestEntry}

/-- The archive at a path can be opened. -/
def opens (report : Bytes → String) (disk : Disk) (key : ArchivePath) : Bool :=
  match archiveDetail report disk key with
  | .ok none => true
  | _ => false

/-- The entries whose archives can be opened. -/
def usable (report : Bytes → String) (manifestPath : ArchivePath) (disk : Disk)
    (archives : List ContentArchiveManifestEntry) : List ContentArchiveManifestEntry :=
  archives.filter fun entry => opens report disk (entry.resolved manifestPath)

/-- Opening these archives does not panic. -/
def Calm (report : Bytes → String) (manifestPath : ArchivePath) (disk : Disk)
    (archives : List ContentArchiveManifestEntry) : Prop :=
  ∀ entry ∈ archives, archiveDetail report disk (entry.resolved manifestPath) ≠ .error .panic

theorem archiveDetail_error {key : ArchivePath} {fault : Fault}
    (failed : archiveDetail report disk key = .error fault) : fault = .panic := by
  rw [archiveDetail] at failed
  repeat' split at failed
  all_goals cases failed
  rfl

/-- The health of an entry whose archive can be looked at without a panic. -/
def healthAt (report : Bytes → String) (manifestPath : ArchivePath) (disk : Disk)
    (entry : ContentArchiveManifestEntry) : ContentArchiveHealth :=
  ⟨entry, entry.resolved manifestPath,
    match archiveDetail report disk (entry.resolved manifestPath) with
    | .ok detail => detail
    | .error _ => some ""⟩

theorem valid_healthAt (entry : ContentArchiveManifestEntry) :
    (healthAt report manifestPath disk entry).valid =
      opens report disk (entry.resolved manifestPath) := by
  rw [ContentArchiveHealth.valid, healthAt, opens]
  cases archiveDetail report disk (entry.resolved manifestPath) with
  | error fault => rfl
  | ok detail => cases detail <;> rfl

def usableHealths (report : Bytes → String) (manifestPath : ArchivePath) (disk : Disk)
    (archives : List ContentArchiveManifestEntry) : List ContentArchiveHealth :=
  (usable report manifestPath disk archives).map (healthAt report manifestPath disk)

def lostHealths (report : Bytes → String) (manifestPath : ArchivePath) (disk : Disk)
    (archives : List ContentArchiveManifestEntry) : List ContentArchiveHealth :=
  (archives.filter fun entry => !opens report disk (entry.resolved manifestPath)).map
    (healthAt report manifestPath disk)

theorem entry_usableHealths :
    (usableHealths report manifestPath disk archives).map ContentArchiveHealth.entry =
      usable report manifestPath disk archives := by
  rw [usableHealths, map_map]
  exact map_id _

theorem usableHealths_eq_nil : usableHealths report manifestPath disk archives = [] ↔
    usable report manifestPath disk archives = [] :=
  map_eq_nil_iff

theorem lostHealths_eq_nil : lostHealths report manifestPath disk archives = [] ↔
    usable report manifestPath disk archives = archives := by
  simp [lostHealths, usable, filter_eq_nil_iff, filter_eq_self]

theorem classify_of_calm (calm : Calm report manifestPath disk archives) :
    classifyArchives report manifestPath disk archives =
      .ok (usableHealths report manifestPath disk archives,
        lostHealths report manifestPath disk archives) := by
  have each : ∀ entry ∈ archives, archiveHealth report manifestPath disk entry =
      .ok (healthAt report manifestPath disk entry) := by
    intro entry member
    have quiet := calm entry member
    rw [archiveHealth, healthAt]
    change Except.map _ (archiveDetail report disk (entry.resolved manifestPath)) = _
    cases found : archiveDetail report disk (entry.resolved manifestPath) with
    | error fault => exact absurd (archiveDetail_error found ▸ found) quiet
    | ok detail => rfl
  rw [classifyArchives, Folds.mapM_ok each]
  simp only [Except.map, filter_map, Function.comp_def, valid_healthAt]
  rfl

theorem classify_panics (notCalm : ¬Calm report manifestPath disk archives) :
    classifyArchives report manifestPath disk archives = .error .panic := by
  suffices stops : archives.mapM (archiveHealth report manifestPath disk) = .error .panic by
    rw [classifyArchives, stops]
    rfl
  induction archives with
  | nil => exact absurd nofun notCalm
  | cons entry archives ih =>
      rw [mapM_cons, archiveHealth]
      cases found : archiveDetail report disk (resolveManifestPath manifestPath entry.path) with
      | error fault => exact archiveDetail_error found ▸ rfl
      | ok detail =>
          have later : ¬Calm report manifestPath disk archives := by
            refine fun calm => notCalm (forall_mem_cons.mpr ⟨?_, calm⟩)
            exact found ▸ nofun
          rw [ih later]
          rfl

theorem usable_eq_self : usable report manifestPath disk archives = archives ↔
    ∀ entry ∈ archives, opens report disk (entry.resolved manifestPath) = true :=
  filter_eq_self

theorem calm_of_usable (all : usable report manifestPath disk archives = archives) :
    Calm report manifestPath disk archives := by
  intro entry member panics
  have opened := usable_eq_self.mp all entry member
  rw [opens, panics] at opened
  cases opened

end Classifying

section Planning

variable {report : Bytes → String} {manifestPath : ArchivePath} {disk : Disk}
  {discovered archives : List ContentArchiveManifestEntry} {plan : ContentManifestRecoveryPlan}

theorem opens_congr {other : Disk} {key : ArchivePath} (same : other key = disk key) :
    archiveDetail report other key = archiveDetail report disk key := by
  rw [archiveDetail, archiveDetail, same]

/-- What begins like a manifest is no archive. -/
theorem archiveDetail_headed {key : ArchivePath} {content : Bytes}
    (holds : disk key = some (.file content))
    (headed : encodeText contentManifestHeader <+: content) :
    ∃ detail, archiveDetail report disk key = .ok (some detail) := by
  have unsupported : mmapContentVersion (key.components) content =
      .error (unsupportedHeader (key.components)) := mmapContentVersion_foreign _ headed (by decide)
  rw [archiveDetail, holds]
  simp only [MmapContentArchive.openArchive, unsupported, bind, Except.bind]
  exact ⟨_, rfl⟩

theorem headed_of_read {content : Bytes} {manifest : ContentArchiveManifest}
    (read : readManifest manifestPath content = .ok manifest) :
    encodeText contentManifestHeader <+: content := by
  rw [readManifest] at read
  split at read
  · cases read
  · rename_i first rest split
    cases decoded : decodeText first with
    | none =>
        rw [decoded] at read
        cases read
    | some header =>
        rw [decoded] at read
        dsimp only at read
        by_cases same : header = contentManifestHeader
        · rw [← same, encodeText_of_decodeText decoded]
          exact prefix_of_lines split
        · rw [if_pos same] at read
          cases read

theorem planFromDiscovered_ready {valid invalid : List ContentArchiveHealth}
    {reason : ContentManifestRecoveryReason} {detail : Option String} :
    (planFromDiscovered valid invalid reason detail).action ≠ .ready := by
  rw [planFromDiscovered]
  split
  · nofun
  · split <;> nofun

theorem fault_of_read {node : Node} {manifest : ContentArchiveManifest}
    (read : readNode manifestPath node = .ok manifest) : node.fault = none := by
  cases node with
  | file content => rfl
  | unreadable message => rfl
  | hidden message => cases read

section Cases

variable {node : Node} {manifest : ContentArchiveManifest} {error : GfmError}

theorem plan_absent (absent : disk manifestPath = none)
    (calm : Calm report manifestPath disk discovered) :
    planContentManifestRecovery report manifestPath discovered disk =
      .ok (planFromDiscovered (usableHealths report manifestPath disk discovered)
        (lostHealths report manifestPath disk discovered) .missingManifest none) := by
  rw [planContentManifestRecovery, absent, classify_of_calm calm]
  rfl

theorem plan_hidden {message : String} (present : disk manifestPath = some node)
    (shown : node.fault = some message) :
    planContentManifestRecovery report manifestPath discovered disk =
      .ok ⟨.cannotRecover, .unreadableManifest, [], [],
        some ("content manifest existence unavailable: " ++ message)⟩ := by
  rw [planContentManifestRecovery, present]
  simp only [shown]
  rfl

theorem plan_unread (present : disk manifestPath = some node) (shown : node.fault = none)
    (unreadable : readNode manifestPath node = .error error)
    (calm : Calm report manifestPath disk discovered) :
    planContentManifestRecovery report manifestPath discovered disk =
      .ok (planFromDiscovered (usableHealths report manifestPath disk discovered)
        (lostHealths report manifestPath disk discovered) .unreadableManifest
        (some error.toText)) := by
  rw [planContentManifestRecovery, present]
  simp only [shown, unreadable, classify_of_calm calm]
  rfl

theorem plan_ready (present : disk manifestPath = some node)
    (read : readNode manifestPath node = .ok manifest)
    (all : usable report manifestPath disk manifest.archives = manifest.archives) :
    planContentManifestRecovery report manifestPath discovered disk =
      .ok ⟨.ready, .healthy, usableHealths report manifestPath disk manifest.archives, [],
        none⟩ := by
  rw [planContentManifestRecovery, present]
  simp only [fault_of_read read, read, classify_of_calm (calm_of_usable all),
    lostHealths_eq_nil.mpr all]
  rfl

theorem plan_pruned (present : disk manifestPath = some node)
    (read : readNode manifestPath node = .ok manifest)
    (calm : Calm report manifestPath disk manifest.archives)
    (some' : usable report manifestPath disk manifest.archives ≠ [])
    (lost : usable report manifestPath disk manifest.archives ≠ manifest.archives) :
    planContentManifestRecovery report manifestPath discovered disk =
      .ok ⟨.pruneInvalidArchives,
        invalidReason (lostHealths report manifestPath disk manifest.archives),
        usableHealths report manifestPath disk manifest.archives,
        lostHealths report manifestPath disk manifest.archives, none⟩ := by
  rw [planContentManifestRecovery, present]
  simp only [fault_of_read read, read, classify_of_calm calm, bind, Except.bind]
  rw [if_neg (by simpa [lostHealths_eq_nil] using lost),
    if_pos (by simpa [usableHealths_eq_nil] using some')]
  rfl

/-- No listed archive is usable, so the discovered ones take their place. -/
theorem plan_replaced (present : disk manifestPath = some node)
    (read : readNode manifestPath node = .ok manifest)
    (calmListed : Calm report manifestPath disk manifest.archives)
    (none : usable report manifestPath disk manifest.archives = [])
    (lost : usable report manifestPath disk manifest.archives ≠ manifest.archives)
    (calm : Calm report manifestPath disk discovered) :
    ∃ plan, planContentManifestRecovery report manifestPath discovered disk = .ok plan ∧
      plan.validArchives = usableHealths report manifestPath disk discovered ∧
      plan.action = if plan.validArchives.isEmpty then .cannotRecover
        else .writeDiscoveredManifest := by
  rw [planContentManifestRecovery, present]
  simp only [fault_of_read read, read, classify_of_calm calmListed, classify_of_calm calm, bind,
    Except.bind]
  rw [if_neg (by simpa [lostHealths_eq_nil] using lost), usableHealths_eq_nil.mpr none]
  cases usableHealths report manifestPath disk discovered with
  | nil => exact ⟨_, rfl, rfl, rfl⟩
  | cons first others => exact ⟨_, rfl, rfl, rfl⟩

end Cases

/-- Where no archive panics there is a plan, and nothing is to be done where every listed archive
is usable. -/
theorem plan_of_calm (calm : Calm report manifestPath disk discovered)
    (calmListed : ∀ node manifest, disk manifestPath = some node →
      readNode manifestPath node = .ok manifest → Calm report manifestPath disk manifest.archives) :
    ∃ plan, planContentManifestRecovery report manifestPath discovered disk = .ok plan ∧
      (plan.action = .ready ↔ ∃ node manifest, disk manifestPath = some node ∧
        readNode manifestPath node = .ok manifest ∧
        usable report manifestPath disk manifest.archives = manifest.archives) := by
  cases found : disk manifestPath with
  | none =>
      refine ⟨_, plan_absent found calm, iff_of_false planFromDiscovered_ready ?_⟩
      rintro ⟨_, _, present, -⟩
      cases present
  | some node =>
      have same : (∃ other listed, some node = some other ∧
          readNode manifestPath other = .ok listed ∧
          usable report manifestPath disk listed.archives = listed.archives) ↔
          ∃ manifest, readNode manifestPath node = .ok manifest ∧
            usable report manifestPath disk manifest.archives = manifest.archives := by
        simp only [Option.some.injEq, exists_and_left, exists_eq_left']
      rw [same]
      cases read : readNode manifestPath node with
      | error error =>
          cases shown : node.fault with
          | some message => exact ⟨_, plan_hidden found shown, iff_of_false nofun (by simp)⟩
          | none =>
              refine ⟨_, plan_unread found shown read calm, ?_⟩
              exact iff_of_false planFromDiscovered_ready (by simp)
      | ok manifest =>
          simp only [Except.ok.injEq, exists_eq_left']
          have calmHere := calmListed node manifest found read
          by_cases all : usable report manifestPath disk manifest.archives = manifest.archives
          · exact ⟨_, plan_ready found read all, iff_of_true rfl all⟩
          · by_cases none : usable report manifestPath disk manifest.archives = []
            · rcases plan_replaced found read calmHere none all calm with ⟨plan, planned, -, action⟩
              refine ⟨plan, planned, iff_of_false ?_ all⟩
              rw [action]
              split <;> nofun
            · exact ⟨_, plan_pruned found read calmHere none all, iff_of_false nofun all⟩

end Planning

section Converging

variable (report : Bytes → String) (manifestPath : ArchivePath)
  (discovered : List ContentArchiveManifestEntry) (answers : Answers) (disk : Disk)

/-- The archives that a manifest should list: its own that can be opened, or else those of the
discovered ones. -/
def candidates : List ContentArchiveManifestEntry :=
  match (disk manifestPath).map (readNode manifestPath) with
  | some (.ok manifest) =>
      if usable report manifestPath disk manifest.archives = [] then
        usable report manifestPath disk discovered
      else usable report manifestPath disk manifest.archives
  | _ => usable report manifestPath disk discovered

structure Converged (after : Disk) (recovery : ContentManifestRecovery) : Prop where
  ready : recovery.after.action = .ready
  readable : ∃ node, after manifestPath = some node ∧
    readNode manifestPath node = .ok ⟨candidates report manifestPath discovered disk⟩
  once : ((candidates report manifestPath discovered disk).map (·.resolved manifestPath)).Nodup
  valid : ∀ entry ∈ candidates report manifestPath discovered disk,
    opens report after (entry.resolved manifestPath) = true

/-- A recovery that returns has converged, one that fails has left the manifest as it was. -/
def Converges : Except Fault ContentManifestRecovery × Disk → Prop
  | (.ok recovery, after) => Converged report manifestPath discovered disk after recovery
  | (.error (.error _), after) => after manifestPath = disk manifestPath
  | (.error .panic, _) => True

/-- These archives can be listed without another file in their place. -/
def Listable (entries : List ContentArchiveManifestEntry) : Prop :=
  (entries.map (·.resolved manifestPath)).Nodup ∧
    ∀ entry ∈ entries, entry.resolved manifestPath ≠ manifestPath

variable {report manifestPath discovered answers disk}

/-- The manifest is written on a disk that still holds the archives. -/
theorem written_converges_iff {held : Disk} {before : ContentManifestRecoveryPlan}
    {quarantined : Option ArchivePath} (calm : Calm report manifestPath disk discovered)
    (nonempty : usable report manifestPath disk discovered ≠ [])
    (isCandidates : candidates report manifestPath discovered disk =
      usable report manifestPath disk discovered)
    (valid : before.validArchives.map ContentArchiveHealth.entry =
      usable report manifestPath disk discovered)
    (holds : ∀ entry ∈ discovered, entry.resolved manifestPath ≠ manifestPath →
      held (entry.resolved manifestPath) = disk (entry.resolved manifestPath)) :
    Converges report manifestPath discovered disk
        (match writeRecoveredManifest manifestPath answers before held with
        | (.error fault, after) => (.error fault, after)
        | (.ok _, after) => finished report manifestPath discovered before true quarantined after) ↔
      if ((usable report manifestPath disk discovered).map fun entry =>
          ofText entry.path).Nodup ∧ answers.write = none then
        Listable manifestPath (usable report manifestPath disk discovered)
      else held manifestPath = disk manifestPath := by
  have within : ∀ entry ∈ usable report manifestPath disk discovered, entry ∈ discovered ∧
      opens report disk (entry.resolved manifestPath) = true :=
    fun entry member => mem_filter.mp member
  rw [writeRecoveredManifest, valid]
  generalize usable report manifestPath disk discovered = found at nonempty isCandidates within
  by_cases distinct : (found.map fun entry => ofText entry.path).Nodup
  · rw [new_eq_ok nonempty distinct]
    cases answered : answers.write with
    | some error =>
        rw [if_neg fun both => by cases both.2]
        exact Iff.rfl
    | none =>
        rw [if_pos ⟨distinct, rfl⟩]
        dsimp only [finished]
        generalize isAfter : Function.update held manifestPath
          (some (Node.file (ContentArchiveManifest.text ⟨found⟩))) = after
        have holdsText : after manifestPath =
            some (.file (ContentArchiveManifest.text ⟨found⟩)) := by
          rw [← isAfter, Function.update_self]
        have own := @archiveDetail_headed report after manifestPath _ holdsText
          (prefix_append _ _)
        have same : ∀ entry ∈ discovered, entry.resolved manifestPath ≠ manifestPath →
            archiveDetail report after (entry.resolved manifestPath) =
              archiveDetail report disk (entry.resolved manifestPath) := by
          intro entry member differs
          apply opens_congr
          rw [← isAfter, Function.update_of_ne differs, holds entry member differs]
        have calmAfter : Calm report manifestPath after discovered := by
          intro entry member
          by_cases differs : entry.resolved manifestPath = manifestPath
          · rcases own with ⟨detail, known⟩
            rw [differs, known]
            nofun
          · rw [same entry member differs]
            exact calm entry member
        have listed : ∀ node manifest, after manifestPath = some node →
            readNode manifestPath node = .ok manifest →
            (found.map (·.resolved manifestPath)).Nodup ∧ manifest = ⟨found⟩ := by
          intro node manifest present isRead
          rw [holdsText, Option.some.injEq] at present
          subst present
          by_cases once : (found.map (·.resolved manifestPath)).Nodup
          · have read := readManifest_text nonempty once
            rw [readNode, read, Except.ok.injEq] at isRead
            exact ⟨once, isRead.symm⟩
          · rcases readManifest_duplicate once with ⟨error, fails⟩
            rw [readNode, fails] at isRead
            cases isRead
        rcases plan_of_calm calmAfter fun node manifest present isRead => by
          rw [(listed node manifest present isRead).2]
          exact fun entry member => calmAfter entry (within entry member).1 with
          ⟨plan, planned, ready⟩
        rw [planned]
        change Converged report manifestPath discovered disk after _ ↔ _
        constructor
        · rintro ⟨isReady, -, -, -⟩
          rcases ready.mp isReady with ⟨node, manifest, present, isRead, all⟩
          rcases listed node manifest present isRead with ⟨once, rfl⟩
          refine ⟨once, fun entry member here => ?_⟩
          have opened := usable_eq_self.mp all entry member
          rcases own with ⟨detail, known⟩
          rw [here, opens, known] at opened
          cases opened
        · rintro ⟨once, elsewhere⟩
          have opened : ∀ entry ∈ found,
              opens report after (entry.resolved manifestPath) = true := by
            intro entry member
            rcases within entry member with ⟨isDiscovered, wasOpen⟩
            rw [opens, same entry isDiscovered (elsewhere entry member)]
            exact wasOpen
          have read := readManifest_text nonempty once
          refine ⟨ready.mpr ⟨_, ⟨found⟩, holdsText, read, usable_eq_self.mpr opened⟩, ?_, ?_, ?_⟩
          · rw [isCandidates]
            exact ⟨_, holdsText, read⟩
          · rw [isCandidates]
            exact once
          · rw [isCandidates]
            exact opened
  · rw [if_neg fun both => distinct both.1]
    cases made : ContentArchiveManifest.new found with
    | error error => exact Iff.rfl
    | ok manifest => exact absurd (Manifest.new_eq_ok.mp made).2.1 distinct

variable (report manifestPath discovered answers disk)

/-- Nothing is to be written, or writing fails before the file is touched, or what is written can
be read. -/
def Settles : Prop :=
  let found := usable report manifestPath disk discovered
  found = [] ∨
    ((found.map fun entry => ofText entry.path).Nodup ∧ answers.write = none →
      Listable manifestPath found)

/-- When the recovery converges. -/
def ConvergesWhen : Prop :=
  ((disk manifestPath).bind Node.fault).isSome ∨
    match (disk manifestPath).map (readNode manifestPath) with
    | some (.ok manifest) =>
        ¬Calm report manifestPath disk manifest.archives ∨
          usable report manifestPath disk manifest.archives ≠ [] ∨
          ¬Calm report manifestPath disk discovered ∨
          Settles report manifestPath discovered answers disk
    | some (.error _) =>
        ¬Calm report manifestPath disk discovered ∨
          usable report manifestPath disk discovered = [] ∨ answers.quarantine ≠ none ∨
          (answers.write = none ∧
            Listable manifestPath (usable report manifestPath disk discovered))
    | none =>
        ¬Calm report manifestPath disk discovered ∨
          Settles report manifestPath discovered answers disk

variable {report manifestPath discovered answers disk}

/-- A manifest that lists usable archives is pruned. -/
theorem pruned_converges {node : Node} {manifest : ContentArchiveManifest}
    {before : ContentManifestRecoveryPlan} (present : disk manifestPath = some node)
    (read : readNode manifestPath node = .ok manifest)
    (nonempty : usable report manifestPath disk manifest.archives ≠ [])
    (valid : before.validArchives.map ContentArchiveHealth.entry =
      usable report manifestPath disk manifest.archives) :
    Converges report manifestPath discovered disk
      (match writeRecoveredManifest manifestPath answers before disk with
      | (.error fault, after) => (.error fault, after)
      | (.ok _, after) => finished report manifestPath discovered before true none after) := by
  have isCandidates : candidates report manifestPath discovered disk =
      usable report manifestPath disk manifest.archives := by
    rw [candidates, present, Option.map_some, read]
    exact if_neg nonempty
  cases node with
  | unreadable message => cases read
  | hidden message => cases read
  | file content =>
      have own := @archiveDetail_headed report disk manifestPath content present
        (headed_of_read read)
      have once : ((usable report manifestPath disk manifest.archives).map
          (·.resolved manifestPath)).Nodup :=
        (readManifest_ok read).2.sublist (filter_sublist.map _)
      have opened : ∀ entry ∈ usable report manifestPath disk manifest.archives,
          opens report disk (entry.resolved manifestPath) = true :=
        fun entry member => (mem_filter.mp member).2
      rw [writeRecoveredManifest, valid]
      generalize usable report manifestPath disk manifest.archives = found at *
      rw [new_eq_ok nonempty (distinct_of_resolved once)]
      cases answered : answers.write with
      | some error => exact rfl
      | none =>
          dsimp only [finished]
          generalize isAfter : Function.update disk manifestPath
            (some (Node.file (ContentArchiveManifest.text ⟨found⟩))) = after
          have holdsText : after manifestPath =
              some (.file (ContentArchiveManifest.text ⟨found⟩)) := by
            rw [← isAfter, Function.update_self]
          have openedAfter : ∀ entry ∈ found,
              opens report after (entry.resolved manifestPath) = true := by
            intro entry member
            have wasOpen := opened entry member
            have elsewhere : entry.resolved manifestPath ≠ manifestPath := by
              intro here
              rcases own with ⟨detail, known⟩
              rw [here, opens, known] at wasOpen
              cases wasOpen
            rw [opens, @opens_congr report disk after _ (by
              rw [← isAfter, Function.update_of_ne elsewhere])]
            exact wasOpen
          have readText := readManifest_text nonempty once
          have all := usable_eq_self.mpr openedAfter
          rw [plan_ready holdsText readText all]
          refine ⟨rfl, ?_, ?_, ?_⟩
          · rw [isCandidates]
            exact ⟨_, holdsText, readText⟩
          · rw [isCandidates]
            exact once
          · rw [isCandidates]
            exact openedAfter

/-- The quarantined manifest has a longer name than the manifest. -/
theorem quarantinePath_ne (quarantineDir : ArchivePath) (stamp : String) :
    quarantinePath manifestPath quarantineDir stamp ≠ manifestPath := by
  intro same
  have long : 9 ≤ ((manifestPath.fileName.getD "content.gfmmanifest") ++ ".corrupt." ++
      stamp).length := by
    have length : ".corrupt.".length = 9 := by decide
    simp only [String.length_append]
    omega
  have named : manifestPath.fileName =
      some ((manifestPath.fileName.getD "content.gfmmanifest") ++ ".corrupt." ++ stamp) := by
    conv_lhs => rw [← same, quarantinePath]
    refine fileName_join ?_ ?_ <;> intro short <;>
      rw [short] at long <;> exact absurd long (by decide)
  have lengths := congrArg (Option.map String.length) named
  cases found : manifestPath.fileName with
  | none =>
      rw [found] at named
      cases named
  | some name =>
      rw [found, Option.getD_some, Option.map_some, Option.map_some, Option.some.injEq] at lengths
      have length : ".corrupt.".length = 9 := by decide
      simp only [String.length_append] at lengths
      omega

theorem planFromDiscovered_spec {valid invalid : List ContentArchiveHealth}
    {reason : ContentManifestRecoveryReason} {detail : Option String} :
    (planFromDiscovered valid invalid reason detail).validArchives = valid ∧
      (planFromDiscovered valid invalid reason detail).action =
        if valid.isEmpty then .cannotRecover
        else if reason = .unreadableManifest then .quarantineManifestAndWriteDiscovered
        else .writeDiscoveredManifest := by
  rw [planFromDiscovered]
  split
  · exact ⟨rfl, rfl⟩
  · split <;> exact ⟨rfl, rfl⟩

variable {quarantineDir : ArchivePath} {stamp : String}

theorem recover_panics
    (panics : planContentManifestRecovery report manifestPath discovered disk = .error .panic) :
    Converges report manifestPath discovered disk
      (recoverContentManifest report manifestPath discovered quarantineDir stamp answers disk) := by
  rw [recoverContentManifest, panics]
  exact trivial

theorem recover_cannot {plan : ContentManifestRecoveryPlan}
    (planned : planContentManifestRecovery report manifestPath discovered disk = .ok plan)
    (action : plan.action = .cannotRecover) :
    Converges report manifestPath discovered disk
      (recoverContentManifest report manifestPath discovered quarantineDir stamp answers disk) := by
  rw [recoverContentManifest, planned]
  dsimp only
  rw [action]
  exact rfl

/-- The discovered archives are written where no manifest stands in the way. -/
theorem recover_discovered {plan : ContentManifestRecoveryPlan}
    (planned : planContentManifestRecovery report manifestPath discovered disk = .ok plan)
    (calm : Calm report manifestPath disk discovered)
    (isCandidates : candidates report manifestPath discovered disk =
      usable report manifestPath disk discovered)
    (valid : plan.validArchives.map ContentArchiveHealth.entry =
      usable report manifestPath disk discovered)
    (action : plan.action =
      if plan.validArchives.isEmpty then .cannotRecover else .writeDiscoveredManifest) :
    Converges report manifestPath discovered disk
        (recoverContentManifest report manifestPath discovered quarantineDir stamp answers disk) ↔
      Settles report manifestPath discovered answers disk := by
  by_cases nothing : plan.validArchives = []
  · rw [nothing] at action valid
    exact iff_of_true (recover_cannot planned action) (Or.inl valid.symm)
  · have nonempty : usable report manifestPath disk discovered ≠ [] := by
      rw [← valid]
      exact fun none => nothing (map_eq_nil_iff.mp none)
    rw [if_neg (by simpa using nothing)] at action
    rw [recoverContentManifest, planned]
    dsimp only
    rw [action]
    dsimp only
    refine (@written_converges_iff report manifestPath discovered answers disk disk plan none calm
      nonempty isCandidates valid fun _ _ _ => rfl).trans ?_
    rw [Settles]
    simp only [nonempty, false_or]
    split
    · rename_i written
      exact ⟨fun listable _ => listable, fun settles => settles written⟩
    · rename_i unwritten
      exact iff_of_true trivial fun written => absurd written unwritten

/-- The discovered archives are written after the manifest was quarantined. -/
theorem recover_quarantined {plan : ContentManifestRecoveryPlan} {node : Node} {error : GfmError}
    (present : disk manifestPath = some node)
    (unreadable : readNode manifestPath node = .error error)
    (fresh : ∀ entry ∈ discovered,
      entry.resolved manifestPath ≠ quarantinePath manifestPath quarantineDir stamp)
    (planned : planContentManifestRecovery report manifestPath discovered disk = .ok plan)
    (calm : Calm report manifestPath disk discovered)
    (valid : plan.validArchives.map ContentArchiveHealth.entry =
      usable report manifestPath disk discovered)
    (action : plan.action =
      if plan.validArchives.isEmpty then .cannotRecover
      else .quarantineManifestAndWriteDiscovered) :
    Converges report manifestPath discovered disk
        (recoverContentManifest report manifestPath discovered quarantineDir stamp answers disk) ↔
      (usable report manifestPath disk discovered = [] ∨ answers.quarantine ≠ none ∨
        (answers.write = none ∧
          Listable manifestPath (usable report manifestPath disk discovered))) := by
  have isCandidates : candidates report manifestPath discovered disk =
      usable report manifestPath disk discovered := by
    rw [candidates, present, Option.map_some, unreadable]
  by_cases nothing : plan.validArchives = []
  · rw [nothing] at action valid
    exact iff_of_true (recover_cannot planned action) (Or.inl valid.symm)
  · have nonempty : usable report manifestPath disk discovered ≠ [] := by
      rw [← valid]
      exact fun none => nothing (map_eq_nil_iff.mp none)
    rw [if_neg (by simpa using nothing)] at action
    rw [recoverContentManifest, planned]
    dsimp only
    rw [action]
    dsimp only
    rw [quarantineManifest]
    cases answered : answers.quarantine with
    | some stopped =>
        refine iff_of_true ?_ (Or.inr (Or.inl nofun))
        exact rfl
    | none =>
        have apart : quarantinePath manifestPath quarantineDir stamp ≠ manifestPath :=
          quarantinePath_ne quarantineDir stamp
        have holds : ∀ entry ∈ discovered, entry.resolved manifestPath ≠ manifestPath →
            Function.update (Function.update disk manifestPath none)
              (quarantinePath manifestPath quarantineDir stamp) (disk manifestPath)
              (entry.resolved manifestPath) = disk (entry.resolved manifestPath) := by
          intro entry member elsewhere
          rw [Function.update_of_ne (fresh entry member), Function.update_of_ne elsewhere]
        have gone : Function.update (Function.update disk manifestPath none)
            (quarantinePath manifestPath quarantineDir stamp) (disk manifestPath) manifestPath ≠
            disk manifestPath := by
          rw [Function.update_of_ne apart.symm, Function.update_self, present]
          nofun
        refine (@written_converges_iff report manifestPath discovered answers disk _ plan
          (some (quarantinePath manifestPath quarantineDir stamp)) calm nonempty isCandidates valid
          holds).trans ?_
        simp only [nonempty, ne_eq, not_true_eq_false, false_or]
        split
        · rename_i written
          exact ⟨fun listable => ⟨written.2, listable⟩, And.right⟩
        · rename_i unwritten
          refine iff_of_false gone fun both => unwritten ⟨?_, both.1⟩
          exact distinct_of_resolved both.2.1

theorem readNode_ok {node : Node} {manifest : ContentArchiveManifest}
    (read : readNode manifestPath node = .ok manifest) : manifest.archives ≠ [] ∧
      (manifest.archives.map (·.resolved manifestPath)).Nodup := by
  cases node with
  | unreadable message => cases read
  | hidden message => cases read
  | file content => exact readManifest_ok read

/-- The recovery of a manifest that can be read. -/
theorem recover_listed {node : Node} {manifest : ContentArchiveManifest}
    (present : disk manifestPath = some node) (read : readNode manifestPath node = .ok manifest)
    (calmListed : Calm report manifestPath disk manifest.archives) :
    Converges report manifestPath discovered disk
        (recoverContentManifest report manifestPath discovered quarantineDir stamp answers disk) ↔
      (usable report manifestPath disk manifest.archives ≠ [] ∨
        ¬Calm report manifestPath disk discovered ∨
        Settles report manifestPath discovered answers disk) := by
  have listed := @readNode_ok manifestPath node manifest read
  by_cases all : usable report manifestPath disk manifest.archives = manifest.archives
  · have isCandidates : candidates report manifestPath discovered disk = manifest.archives := by
      rw [candidates, present, Option.map_some, read]
      dsimp only
      rw [all, if_neg listed.1]
    refine iff_of_true ?_ (Or.inl fun none => listed.1 (all.symm.trans none))
    rw [recoverContentManifest, plan_ready present read all]
    dsimp only [finished]
    rw [plan_ready present read all]
    refine ⟨rfl, ?_, ?_, ?_⟩
    · rw [isCandidates]
      exact ⟨node, present, read⟩
    · rw [isCandidates]
      exact listed.2
    · rw [isCandidates]
      exact usable_eq_self.mp all
  · by_cases unusable : usable report manifestPath disk manifest.archives = []
    · have isCandidates : candidates report manifestPath discovered disk =
          usable report manifestPath disk discovered := by
        rw [candidates, present, Option.map_some, read]
        exact if_pos unusable
      simp only [unusable, ne_eq, not_true_eq_false, false_or]
      by_cases calm : Calm report manifestPath disk discovered
      · simp only [calm, not_true_eq_false, false_or]
        rcases plan_replaced present read calmListed unusable all calm with
          ⟨plan, planned, valid, action⟩
        exact recover_discovered planned calm isCandidates (valid ▸ entry_usableHealths) action
      · refine iff_of_true (recover_panics ?_) (Or.inl calm)
        rw [planContentManifestRecovery, present]
        simp only [fault_of_read read, read, classify_of_calm calmListed, classify_panics calm,
          bind, Except.bind]
        rw [if_neg (by simpa [lostHealths_eq_nil] using all), usableHealths_eq_nil.mpr unusable]
        rfl
    · refine iff_of_true ?_ (Or.inl unusable)
      rw [recoverContentManifest, plan_pruned present read calmListed unusable all]
      exact pruned_converges present read unusable entry_usableHealths

/-- The recovery converges exactly when the archives that it has to write can be listed, each
under a path of its own, or nothing is touched. -/
theorem recoverContentManifest_converges_iff (report : Bytes → String) (manifestPath : ArchivePath)
    (discovered : List ContentArchiveManifestEntry) (quarantineDir : ArchivePath) (stamp : String)
    (answers : Answers) (disk : Disk)
    (fresh : ∀ entry ∈ discovered,
      entry.resolved manifestPath ≠ quarantinePath manifestPath quarantineDir stamp) :
    Converges report manifestPath discovered disk
        (recoverContentManifest report manifestPath discovered quarantineDir stamp answers disk) ↔
      ConvergesWhen report manifestPath discovered answers disk := by
  rw [ConvergesWhen]
  cases present : disk manifestPath with
  | none =>
      simp only [Option.map_none, Option.bind_none, Option.isSome_none, Bool.false_eq_true,
        false_or]
      by_cases calm : Calm report manifestPath disk discovered
      · have isCandidates : candidates report manifestPath discovered disk =
            usable report manifestPath disk discovered := by
          rw [candidates, present, Option.map_none]
        have spec := @planFromDiscovered_spec (usableHealths report manifestPath disk discovered)
          (lostHealths report manifestPath disk discovered) .missingManifest none
        simp only [calm, not_true_eq_false, false_or]
        refine recover_discovered (plan_absent present calm) calm isCandidates ?_ ?_
        · rw [spec.1, entry_usableHealths]
        · rw [spec.1]
          exact spec.2
      · refine iff_of_true (recover_panics ?_) (Or.inl calm)
        rw [planContentManifestRecovery, present, classify_panics calm]
        rfl
  | some node =>
      simp only [Option.map_some, Option.bind_some]
      cases shown : node.fault with
      | some message =>
          exact iff_of_true (recover_cannot (plan_hidden present shown) rfl) (Or.inl rfl)
      | none =>
          simp only [Option.isSome_none, Bool.false_eq_true, false_or]
          cases read : readNode manifestPath node with
          | error error =>
              dsimp only
              by_cases calm : Calm report manifestPath disk discovered
              · have spec := @planFromDiscovered_spec
                  (usableHealths report manifestPath disk discovered)
                  (lostHealths report manifestPath disk discovered) .unreadableManifest
                  (some error.toText)
                simp only [calm, not_true_eq_false, false_or]
                refine recover_quarantined present read fresh
                  (plan_unread present shown read calm) calm ?_ ?_
                · rw [spec.1, entry_usableHealths]
                · rw [spec.1]
                  exact spec.2
              · refine iff_of_true (recover_panics ?_) (Or.inl calm)
                rw [planContentManifestRecovery, present]
                simp only [shown, read, classify_panics calm]
                rfl
          | ok manifest =>
              dsimp only
              by_cases calmListed : Calm report manifestPath disk manifest.archives
              · simp only [calmListed, not_true_eq_false, false_or]
                exact recover_listed present read calmListed
              · refine iff_of_true (recover_panics ?_) (Or.inl calmListed)
                rw [planContentManifestRecovery, present]
                simp only [shown, read, classify_panics calmListed]
                rfl

end Converging

section Cases

/-- A directory with a manifest, if any, and an archive without postings. -/
def oneArchive (manifest : Option Node) : Disk := fun key =>
  if key = .absolute ["d", "m"] then manifest
  else if key = .absolute ["d", "hot"] then
    some (.file (writeContentPostings Unicode.ascii []))
  else none

def recovered (spellings : List Text) (manifest : Option Node) :
    Except Fault ContentManifestRecovery × Disk :=
  recoverContentManifest (fun _ => "") (.absolute ["d", "m"])
    (spellings.map fun path => ⟨.hot, path⟩) (.absolute ["q"]) "1.2"
    ⟨none, none⟩ (oneArchive manifest)

def leavesUnready : Except Fault ContentManifestRecovery × Disk → Bool
  | (.ok recovery, _) => decide (recovery.after.action ≠ .ready)
  | _ => false

def losesManifest : Except Fault ContentManifestRecovery × Disk → Bool
  | (.error (.error _), after) => (after (.absolute ["d", "m"])).isNone
  | _ => false

/-- Two spellings of one archive make a manifest that cannot be read; an archive named twice over
a garbled manifest leaves none. -/
theorem recoverContentManifest_diverges :
    ¬Converges (fun _ => "") (.absolute ["d", "m"])
        (["hot".toList, "/d/hot".toList].map fun path => ⟨.hot, path⟩) (oneArchive none)
        (recovered ["hot".toList, "/d/hot".toList] none) ∧
      ¬Converges (fun _ => "") (.absolute ["d", "m"])
        (["hot".toList, "hot".toList].map fun path => ⟨.hot, path⟩) (oneArchive (some (.file [])))
        (recovered ["hot".toList, "hot".toList] (some (.file []))) := by
  constructor
  · have unready : leavesUnready (recovered ["hot".toList, "/d/hot".toList] none) = true := by
      decide +kernel
    rcases ran : recovered ["hot".toList, "/d/hot".toList] none with ⟨fault | recovery, after⟩
    · rw [ran] at unready
      cases unready
    · rw [ran] at unready
      intro converged
      exact of_decide_eq_true unready converged.ready
  · have gone :
        losesManifest (recovered ["hot".toList, "hot".toList] (some (.file []))) = true := by
      decide +kernel
    rcases ran : recovered ["hot".toList, "hot".toList] (some (.file [])) with
      ⟨(error | _) | recovery, after⟩
    · rw [ran] at gone
      intro kept
      have same : after (.absolute ["d", "m"]) =
          oneArchive (some (.file [])) (.absolute ["d", "m"]) := kept
      rw [Option.isNone_iff_eq_none.mp gone, oneArchive, if_pos rfl] at same
      cases same
    · rw [ran] at gone
      cases gone
    · rw [ran] at gone
      cases gone

/-- A missing manifest and one archive, discovered once. -/
theorem recoverContentManifest_converges_iff_once :
    Converges (fun _ => "") (.absolute ["d", "m"])
        (["hot".toList].map fun path => ⟨.hot, path⟩) (oneArchive none)
        (recovered ["hot".toList] none) ↔
      ConvergesWhen (fun _ => "") (.absolute ["d", "m"])
        (["hot".toList].map fun path => ⟨.hot, path⟩) ⟨none, none⟩ (oneArchive none) := by
  refine recoverContentManifest_converges_iff _ _ _ _ _ _ _ fun entry member => ?_
  simp only [map_cons, map_nil, mem_singleton] at member
  subst member
  decide

end Cases

end ManifestRecovery

end Gfm.Store
