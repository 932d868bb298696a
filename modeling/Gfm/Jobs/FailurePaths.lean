import Gfm.Jobs.Recovery

/-!
# Failures and the paths in them

The text of a failure on a path begins with the path, and the classifier looks for its keywords in
all of it. No keyword reaches over the colon that ends the path, so a text mentions what the path
or the message mentions, and the class is that of the first group of keywords in either.
-/

namespace Gfm.Jobs

open List

/-- Without the character that divides the text, a part lies on one of its sides. -/
theorem infix_divided {Item : Type*} {part left right : List Item} {divider : Item}
    (undivided : divider ∉ part) :
    part <:+: left ++ divider :: right ↔ part <:+: left ∨ part <:+: right := by
  constructor
  · rintro ⟨before, after, whole⟩
    rcases append_eq_append_iff.mp whole with ⟨more, inLeft, -⟩ | ⟨more, past, rest⟩
    · exact .inl ⟨before, more, inLeft.symm⟩
    cases more with
    | nil => exact .inl ⟨before, [], by simpa using past⟩
    | cons first more =>
        rw [cons_append, List.cons.injEq] at rest
        rcases rest with ⟨rfl, rest⟩
        rcases append_eq_append_iff.mp past with ⟨front, -, across⟩ | ⟨front, -, across⟩
        · exact absurd (by simp [across]) undivided
        · cases front with
          | nil =>
              rw [nil_append] at across
              exact absurd (across ▸ mem_cons_self) undivided
          | cons head front =>
              rw [cons_append, List.cons.injEq] at across
              exact .inr ⟨front, after, by rw [rest, across.2]⟩
  · rintro (inLeft | inRight)
    · exact inLeft.trans (prefix_append _ _).isInfix
    · exact inRight.trans ((suffix_cons _ _).trans (suffix_append _ _)).isInfix

namespace FailureClass

/-- The keywords of each class, in the order in which the classifier looks for them. -/
def keywords : List (List String × FailureClass) :=
  [(["offline", "not mounted", "unmounted", "ejected", "network is down",
      "network is unreachable", "device not configured", "stale file handle"], .offlineVolume),
    (["permission", "denied", "not permitted", "tcc"], .permission),
    (["missing", "not found", "no such file"], .missingFile),
    (["corrupt", "checksum", "crc", "malformed"], .corruptFile),
    (["temporary", "transient", "timed out", "timeout", "busy", "again",
      "resource temporarily unavailable", "interrupted system call",
      "source does not exist"], .transient)]

/-- The text has one of the words in it, in letters of either case. -/
def Mentions (text : String) (words : List String) : Prop :=
  containsAny (text.toList.map asciiLower) words = true

instance (text : String) (words : List String) : Decidable (Mentions text words) :=
  inferInstanceAs (Decidable (_ = true))

/-- The class of the first group that the text mentions. -/
def firstMentioned (text : String) : List (List String × FailureClass) → FailureClass
  | [] => .permanent
  | (words, failureClass) :: groups =>
      if Mentions text words then failureClass else firstMentioned text groups

theorem classify_eq (message : String) : classify message = firstMentioned message keywords := rfl

/-- A word that a colon and a space do not divide. -/
def Undivided (word : String) : Prop := ':' ∉ word.toList ∧ word.toList.head? ≠ some ' '

instance : DecidablePred Undivided :=
  fun word => inferInstanceAs (Decidable (':' ∉ word.toList ∧ word.toList.head? ≠ some ' '))

theorem undivided_keywords : ∀ group ∈ keywords, ∀ word ∈ group.1, Undivided word := by
  decide +kernel

theorem infix_shown {word : String} (undivided : Undivided word) (shown message : Text) :
    word.toList <:+: shown ++ ':' :: ' ' :: message ↔
      word.toList <:+: shown ∨ word.toList <:+: message := by
  rw [infix_divided undivided.1]
  cases letters : word.toList with
  | nil => exact iff_of_true (.inl nil_infix) (.inl nil_infix)
  | cons first rest =>
      rw [infix_cons_iff]
      refine or_congr_right (or_iff_right ?_)
      rintro ⟨more, begins⟩
      rw [cons_append, List.cons.injEq] at begins
      exact undivided.2 (by rw [letters, head?_cons, begins.1])

theorem mentions_io {words : List String} (undivided : ∀ word ∈ words, Undivided word)
    (path : Path) (message : String) : Mentions (GfmError.io path message).toText words ↔
      Mentions path.display words ∨ Mentions message words := by
  have shown : (GfmError.io path message).toText.toList.map asciiLower =
      path.display.toList.map asciiLower ++ ':' :: ' ' :: message.toList.map asciiLower := by
    rw [GfmError.toText, String.toList_append, String.toList_append, map_append,
      map_append, append_assoc]
    rfl
  simp only [Mentions, containsAny, shown, any_eq_true, decide_eq_true_eq]
  constructor
  · rintro ⟨word, listed, among⟩
    rcases (infix_shown (undivided word listed) _ _).mp among with inPath | inMessage
    · exact .inl ⟨word, listed, inPath⟩
    · exact .inr ⟨word, listed, inMessage⟩
  · rintro (⟨word, listed, among⟩ | ⟨word, listed, among⟩)
    · exact ⟨word, listed, (infix_shown (undivided word listed) _ _).mpr (.inl among)⟩
    · exact ⟨word, listed, (infix_shown (undivided word listed) _ _).mpr (.inr among)⟩

/-- Down the groups, as far as the first that the message mentions: both paths mention a group, and
no more is asked, or neither does. -/
def SameMentions (path other message : String) : List (List String × FailureClass) → Prop
  | [] => True
  | (words, _) :: groups =>
      Mentions message words ∨ (Mentions path words ∧ Mentions other words) ∨
        (¬Mentions path words ∧ ¬Mentions other words ∧ SameMentions path other message groups)

theorem firstMentioned_mem (text : String) (groups : List (List String × FailureClass)) :
    firstMentioned text groups ∈ groups.map Prod.snd ++ [.permanent] := by
  induction groups with
  | nil => exact mem_singleton_self _
  | cons group groups ih =>
      rw [firstMentioned]
      split
      · exact mem_cons_self
      · exact mem_cons_of_mem _ ih

theorem firstMentioned_eq_iff {text other : String} {groups : List (List String × FailureClass)}
    (distinct : (groups.map Prod.snd ++ [FailureClass.permanent]).Nodup)
    (path otherPath message : String)
    (shown : ∀ group ∈ groups, Mentions text group.1 ↔
      Mentions path group.1 ∨ Mentions message group.1)
    (otherShown : ∀ group ∈ groups, Mentions other group.1 ↔
      Mentions otherPath group.1 ∨ Mentions message group.1) :
    firstMentioned text groups = firstMentioned other groups ↔
      SameMentions path otherPath message groups := by
  induction groups with
  | nil => exact iff_of_true rfl trivial
  | cons group groups ih =>
      rw [map_cons, cons_append, nodup_cons] at distinct
      rw [forall_mem_cons] at shown otherShown
      have later := ih distinct.2 shown.2 otherShown.2
      have differs : ∀ text, firstMentioned text groups ≠ group.2 :=
        fun text same => distinct.1 (same ▸ firstMentioned_mem text groups)
      simp only [firstMentioned, SameMentions, shown.1, otherShown.1]
      by_cases inMessage : Mentions message group.1
      · simp [inMessage]
      · by_cases inPath : Mentions path group.1
        · by_cases inOther : Mentions otherPath group.1
          · simp [inPath, inOther]
          · simp [inMessage, inPath, inOther, (differs other).symm]
        · by_cases inOther : Mentions otherPath group.1
          · simp [inMessage, inPath, inOther, differs text]
          · simpa [inMessage, inPath, inOther] using later

theorem distinct_keywords : (keywords.map Prod.snd ++ [FailureClass.permanent]).Nodup := by
  decide

/-- The message mentions a volume that is offline, which goes before everything else. -/
def MentionsOffline (message : String) : Prop :=
  Mentions message ["offline", "not mounted", "unmounted", "ejected", "network is down",
    "network is unreachable", "device not configured", "stale file handle"]

theorem classify_io_eq_iff (message : String) (path other : Path) :
    classify (GfmError.io path message).toText = classify (GfmError.io other message).toText ↔
      SameMentions path.display other.display message keywords := by
  rw [classify_eq, classify_eq]
  refine firstMentioned_eq_iff distinct_keywords _ _ _ (fun group listed => ?_)
    fun group listed => ?_
  · exact mentions_io (undivided_keywords group listed) path message
  · exact mentions_io (undivided_keywords group listed) other message

theorem sameMentions_of_offline {message : String} (offline : MentionsOffline message)
    (path other : String) : SameMentions path other message keywords :=
  .inl offline

/-- Two failures with one message are of one class exactly where the paths mention the same groups
of keywords as far as it matters; with any two paths, exactly where the message itself mentions a
volume that is offline. -/
theorem classify_path_iff (message : String) :
    (∀ path other : Path,
      classify (GfmError.io path message).toText = classify (GfmError.io other message).toText ↔
        SameMentions path.display other.display message keywords) ∧
    ((∀ path other : Path, classify (GfmError.io path message).toText =
        classify (GfmError.io other message).toText) ↔ MentionsOffline message) := by
  refine ⟨classify_io_eq_iff message, fun same => ?_, fun offline path other => ?_⟩
  · have apart := (classify_io_eq_iff message ["offline"] ["a"]).mp (same _ _)
    rcases apart with mentioned | ⟨-, wrong⟩ | ⟨wrong, -⟩
    · exact mentioned
    · exact absurd wrong (by decide +kernel)
    · exact absurd (by decide +kernel) wrong
  · exact (classify_io_eq_iff message path other).mpr (sameMentions_of_offline offline _ _)

/-- A missing file on a volume whose name says that it is offline may be tried again. -/
theorem classify_offlineBackups :
    classify (GfmError.io ["Volumes", "Offline Backups", "a"]
        "No such file or directory (os error 2)").toText = .offlineVolume ∧
      classify (GfmError.io ["tmp", "a"] "No such file or directory (os error 2)").toText =
        .missingFile := by
  decide +kernel

end FailureClass

end Gfm.Jobs
