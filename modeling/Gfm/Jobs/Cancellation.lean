import Mathlib

/-!
# Cancellation tokens

A token holds weak links to its children and a weak link to its parent: the handles alone keep
it alive. The tokens are numbered in the order in which they are made, and a token that is no
longer held stays in the list, where no weak link leads to it any more. A child is newer than
its parent, which is why the walks over the links end.
-/

namespace Gfm.Jobs

open List

def childPruneFloor : Nat := 1024

structure CancellationChildren where
  links : List Nat
  nextPruneLen : Nat
  deriving DecidableEq, Repr

structure CancellationInner where
  cancelled : Bool
  parent : Option Nat
  children : CancellationChildren
  deriving DecidableEq, Repr

namespace CancellationChildren

def default : CancellationChildren := ⟨[], childPruneFloor⟩

theorem links_default : default.links = [] := rfl

def resetPruneThreshold (children : CancellationChildren) : CancellationChildren :=
  { children with nextPruneLen := max ((children.links.length + 1) * 2) childPruneFloor }

/-- The links without those to tokens that are no longer held. -/
def retain (children : CancellationChildren) (held : Nat → Bool) : CancellationChildren :=
  { children with links := children.links.filter held }

def pruneIfNeeded (children : CancellationChildren) (held : Nat → Bool) : CancellationChildren :=
  if children.links.length < children.nextPruneLen then children
  else (children.retain held).resetPruneThreshold

theorem retain_sublist (children : CancellationChildren) (held : Nat → Bool) :
    (children.retain held).resetPruneThreshold.links.Sublist children.links :=
  filter_sublist

theorem pruneIfNeeded_sublist (children : CancellationChildren) (held : Nat → Bool) :
    (children.pruneIfNeeded held).links.Sublist children.links := by
  unfold pruneIfNeeded
  split
  · exact List.Sublist.refl _
  · exact children.retain_sublist held

/-- Only dead links are pruned. -/
theorem mem_pruneIfNeeded {children : CancellationChildren} {held : Nat → Bool} {link : Nat}
    (live : held link = true) :
    link ∈ (children.pruneIfNeeded held).links ↔ link ∈ children.links := by
  unfold pruneIfNeeded
  split
  · rfl
  · simp [resetPruneThreshold, retain, live]

end CancellationChildren

structure Cancellations where
  inner : List CancellationInner
  /-- The token of every handle that is held. -/
  handles : List Nat
  older : ∀ (id : Nat) (token : CancellationInner) (parent : Nat), inner[id]? = some token →
    token.parent = some parent → parent < id
  newer : ∀ (id : Nat) (token : CancellationInner), inner[id]? = some token →
    token.children.links.Pairwise (· < ·) ∧ ∀ link ∈ token.children.links, id < link ∧
      link < inner.length

/-- The doubled weights of newer tokens weigh less than the one of their parent. -/
theorem sum_weights_lt {links : List Nat} {id count : Nat} (ascending : links.Pairwise (· < ·))
    (between : ∀ link ∈ links, id < link ∧ link < count) :
    (links.map fun link => 2 ^ (count - link)).sum < 2 ^ (count - id) := by
  induction links generalizing id with
  | nil => exact Nat.two_pow_pos _
  | cons link links ih =>
      rcases pairwise_cons.mp ascending with ⟨least, later⟩
      have bounds := between link mem_cons_self
      have tail := ih later fun other among =>
        ⟨least other among, (between other (mem_cons_of_mem link among)).2⟩
      have double : 2 ^ (count - link) + 2 ^ (count - link) ≤ 2 ^ (count - id) := by
        rw [← Nat.two_mul, ← Nat.pow_succ']
        apply Nat.pow_le_pow_right Nat.two_pos
        omega
      rw [map_cons, sum_cons]
      omega

namespace Cancellations

variable (tokens : Cancellations)

def empty : Cancellations :=
  ⟨[], [], fun _ _ _ found => by simp at found, fun _ _ found => by simp at found⟩

/-- The token can be upgraded to: a handle keeps it alive. -/
def held (id : Nat) : Bool := tokens.handles.contains id

def parent (id : Nat) : Option Nat := tokens.inner[id]?.bind CancellationInner.parent

def links (id : Nat) : List Nat :=
  match tokens.inner[id]? with
  | some token => token.children.links
  | none => []

def flagged (id : Nat) : Bool :=
  match tokens.inner[id]? with
  | some token => token.cancelled
  | none => false

theorem parent_lt {id above : Nat} (child : tokens.parent id = some above) :
    above < id ∧ id < tokens.inner.length := by
  rcases found : tokens.inner[id]? with _ | token
  · simp [parent, found] at child
  · have childOf : token.parent = some above := by simpa [parent, found] using child
    rcases List.getElem?_eq_some_iff.mp found with ⟨inside, _⟩
    exact ⟨tokens.older id token above found childOf, inside⟩

/-- A change of one token that keeps its parent and adds no links. -/
def update (id : Nat) (change : CancellationInner → CancellationInner)
    (keeps : ∀ token, (change token).parent = token.parent)
    (fewer : ∀ token, (change token).children.links.Sublist token.children.links) :
    Cancellations where
  inner := tokens.inner.modify id change
  handles := tokens.handles
  older := by
    intro other token parent found childOf
    rcases Option.map_eq_some_iff.mp (getElem?_modify .. ▸ found) with ⟨before, present, rfl⟩
    apply tokens.older other before parent present
    rw [← childOf]
    split
    · exact (keeps before).symm
    · rfl
  newer := by
    intro other token found
    rcases Option.map_eq_some_iff.mp (getElem?_modify .. ▸ found) with ⟨before, present, rfl⟩
    rcases tokens.newer other before present with ⟨ascending, between⟩
    rw [length_modify]
    have sublist : (if id = other then change before else before).children.links.Sublist
        before.children.links := by
      split
      · exact fewer before
      · exact List.Sublist.refl _
    exact ⟨ascending.sublist sublist, fun link among => between link (sublist.subset among)⟩

def mark (id : Nat) : Cancellations :=
  tokens.update id (fun token => { token with cancelled := true }) (fun _ => rfl)
    fun _ => List.Sublist.refl _

/-- A token that is being cancelled, and its children that are still held. -/
def cancellationChildrenToCancel (id : Nat) : List Nat × Cancellations :=
  ((tokens.links id).filter tokens.held,
    (tokens.mark id).update id
      (fun token =>
        { token with children := (token.children.retain tokens.held).resetPruneThreshold })
      (fun _ => rfl) fun token => token.children.retain_sublist tokens.held)

@[simp]
theorem length_visit (id : Nat) :
    (tokens.cancellationChildrenToCancel id).2.inner.length = tokens.inner.length := by
  simp [cancellationChildrenToCancel, mark, update]

theorem links_newer {id link : Nat} (linked : link ∈ tokens.links id) :
    id < link ∧ link < tokens.inner.length := by
  unfold links at linked
  split at linked
  case h_1 token found => exact (tokens.newer id token found).2 link linked
  case h_2 missing => exact absurd linked not_mem_nil

theorem links_ascending (id : Nat) : (tokens.links id).Pairwise (· < ·) := by
  unfold links
  split
  case h_1 token found => exact (tokens.newer id token found).1
  case h_2 missing => exact List.Pairwise.nil

/-- The stack of the tokens that are still to be cancelled. -/
def cancelLoop (tokens : Cancellations) : List Nat → Cancellations
  | [] => tokens
  | id :: stack =>
      let visited := tokens.cancellationChildrenToCancel id
      cancelLoop visited.2 (visited.1.reverse ++ stack)
  termination_by stack => (stack.map fun id => 2 ^ (tokens.inner.length - id)).sum
  decreasing_by
    rw [length_visit, map_append, sum_append, map_cons, sum_cons]
    apply Nat.add_lt_add_right
    have lighter := sum_weights_lt ((tokens.links_ascending id).filter tokens.held)
      fun link among => tokens.links_newer (mem_of_mem_filter among)
    rw [map_reverse, sum_reverse]
    exact lighter

def cancel (id : Nat) : Cancellations := tokens.cancelLoop [id]

/-- The tokens above that were passed on the way to one that is cancelled. -/
def isCancelledLoop (observed : List Nat) : Option Nat → Option (List Nat)
  | none => none
  | some above =>
      if tokens.held above then
        match found : tokens.inner[above]? with
        | none => none
        | some token =>
            if token.cancelled then some observed
            else isCancelledLoop (observed ++ [above]) token.parent
      else none
  termination_by current => match current with
    | none => 0
    | some above => above + 1
  decreasing_by
    rcases next : token.parent with _ | parent
    · exact Nat.succ_pos above
    · have older := tokens.older above token parent found next
      simp only
      omega

/-- The answer, and the tokens in which it is latched. -/
def isCancelled (id : Nat) : Bool × Cancellations :=
  if tokens.flagged id then (true, tokens)
  else match tokens.isCancelledLoop [] (tokens.parent id) with
    | some observed => (true, observed.foldl mark (tokens.mark id))
    | none => (false, tokens)

/-- A new token without children, with a handle. -/
def add (token : CancellationInner)
    (above : ∀ parent, token.parent = some parent → parent < tokens.inner.length)
    (childless : token.children.links = []) : Cancellations where
  inner := tokens.inner ++ [token]
  handles := tokens.inner.length :: tokens.handles
  older := by
    intro id other parent found childOf
    rw [getElem?_append] at found
    split at found
    case isTrue old => exact tokens.older id other parent found childOf
    case isFalse new =>
      rcases mem_singleton.mp (mem_of_getElem? found) with rfl
      have bound := above parent childOf
      omega
  newer := by
    intro id other found
    rw [length_append, length_singleton]
    rw [getElem?_append] at found
    split at found
    case isTrue old =>
      rcases tokens.newer id other found with ⟨ascending, between⟩
      refine ⟨ascending, fun link among => ?_⟩
      have bounds := between link among
      omega
    case isFalse new =>
      rcases mem_singleton.mp (mem_of_getElem? found) with rfl
      rw [childless]
      exact ⟨List.Pairwise.nil, fun link among => absurd among not_mem_nil⟩

def defaultToken : Cancellations :=
  tokens.add ⟨false, none, .default⟩ (fun _ absent =>
    nomatch absent) CancellationChildren.links_default

/-- The newest token as the last child of an older one that does not link to it yet. -/
def pushLink (id : Nat) (newest : id + 1 < tokens.inner.length)
    (fresh : ∀ link ∈ tokens.links id, link + 1 < tokens.inner.length) : Cancellations where
  inner := tokens.inner.modify id fun token =>
    { token with children := { token.children with
      links := token.children.links ++ [tokens.inner.length - 1] } }
  handles := tokens.handles
  older := by
    intro other token parent found childOf
    rcases Option.map_eq_some_iff.mp (getElem?_modify .. ▸ found) with ⟨before, present, rfl⟩
    apply tokens.older other before parent present
    rw [← childOf]
    split <;> rfl
  newer := by
    intro other token found
    rcases Option.map_eq_some_iff.mp (getElem?_modify .. ▸ found) with ⟨before, present, rfl⟩
    rcases tokens.newer other before present with ⟨ascending, between⟩
    rw [length_modify]
    split
    case isFalse away => exact ⟨ascending, between⟩
    case isTrue same =>
      have earlier : ∀ link ∈ before.children.links, link < tokens.inner.length - 1 := by
        intro link among
        have bound := fresh link (by simp only [links, same, present]; exact among)
        omega
      constructor
      · refine pairwise_append.mpr ⟨ascending, pairwise_singleton _ _, ?_⟩
        intro link among last only
        rw [mem_singleton.mp only]
        exact earlier link among
      · intro link among
        rcases mem_append.mp among with old | only
        · exact between link old
        · rw [mem_singleton.mp only]
          omega

/-- The token with its dead links pruned where they have become many. -/
def pruned (id : Nat) : Cancellations :=
  tokens.update id
    (fun token => { token with children := token.children.pruneIfNeeded tokens.held })
    (fun _ => rfl) fun token => token.children.pruneIfNeeded_sublist tokens.held

def child (id : Nat) : Cancellations :=
  let asked := tokens.isCancelled id
  if valid : id < asked.2.inner.length then
    let added := (asked.2.pruned id).add ⟨asked.1, some id, .default⟩
      (fun parent same => by
        rw [← Option.some.inj same]
        simpa [pruned, update] using valid) CancellationChildren.links_default
    added.pushLink id (by simpa [added, add, pruned, update] using valid) fun link linked => by
      have bounds := @links_newer (asked.2.pruned id) id link (by
        simpa [added, links, add, getElem?_append, pruned, update, valid] using linked)
      simpa [added, add] using bounds.2
  else asked.2

def clone (id : Nat) : Cancellations := { tokens with handles := id :: tokens.handles }

def drop (id : Nat) : Cancellations := { tokens with handles := tokens.handles.erase id }

section Views

variable {tokens}

theorem getElem?_update {id other : Nat} {change : CancellationInner → CancellationInner}
    {keeps : ∀ token, (change token).parent = token.parent}
    {fewer : ∀ token, (change token).children.links.Sublist token.children.links} :
    (tokens.update id change keeps fewer).inner[other]? =
      tokens.inner[other]?.map fun token => if id = other then change token else token := by
  simp only [update, getElem?_modify]
  rfl

@[simp]
theorem parent_update {id other : Nat} {change : CancellationInner → CancellationInner}
    {keeps : ∀ token, (change token).parent = token.parent}
    {fewer : ∀ token, (change token).children.links.Sublist token.children.links} :
    (tokens.update id change keeps fewer).parent other = tokens.parent other := by
  simp only [parent, getElem?_update]
  rcases tokens.inner[other]? with _ | token
  · rfl
  · simp only [Option.map_some, Option.bind_some]
    split
    · exact keeps token
    · rfl

@[simp]
theorem length_update {id : Nat} {change : CancellationInner → CancellationInner}
    {keeps : ∀ token, (change token).parent = token.parent}
    {fewer : ∀ token, (change token).children.links.Sublist token.children.links} :
    (tokens.update id change keeps fewer).inner.length = tokens.inner.length := by
  simp [update]

theorem flagged_mark {id other : Nat} :
    (tokens.mark id).flagged other = true ↔
      tokens.flagged other = true ∨ other = id ∧ other < tokens.inner.length := by
  simp only [flagged, mark, getElem?_update]
  rcases found : tokens.inner[other]? with _ | token
  · have outside := List.getElem?_eq_none_iff.mp found
    simp only [Option.map_none, Bool.false_eq_true, false_or, false_iff, not_and]
    omega
  · rcases List.getElem?_eq_some_iff.mp found with ⟨inside, _⟩
    by_cases same : id = other
    · simp [same, inside]
    · have different : ¬other = id := fun equal => same equal.symm
      simp [same, different]

theorem links_mark {id other : Nat} : (tokens.mark id).links other = tokens.links other := by
  simp only [links, mark, getElem?_update]
  rcases tokens.inner[other]? with _ | token
  · rfl
  · simp only [Option.map_some]
    split <;> rfl

section Visit

variable {id other : Nat}

@[simp]
theorem parent_visit : (tokens.cancellationChildrenToCancel id).2.parent other =
    tokens.parent other := by
  simp [cancellationChildrenToCancel, mark]

@[simp]
theorem held_visit : (tokens.cancellationChildrenToCancel id).2.held other =
    tokens.held other := rfl

theorem flagged_visit : (tokens.cancellationChildrenToCancel id).2.flagged other = true ↔
    tokens.flagged other = true ∨ other = id ∧ other < tokens.inner.length := by
  rw [← flagged_mark]
  simp only [flagged, cancellationChildrenToCancel, getElem?_update]
  rcases (tokens.mark id).inner[other]? with _ | token
  · rfl
  · simp only [Option.map_some]
    split <;> rfl

/-- A visit drops dead links only. -/
theorem links_visit {link : Nat} (live : tokens.held link = true) :
    link ∈ (tokens.cancellationChildrenToCancel id).2.links other ↔ link ∈ tokens.links other := by
  rw [← @links_mark tokens id other]
  simp only [links, cancellationChildrenToCancel, getElem?_update]
  rcases (tokens.mark id).inner[other]? with _ | token
  · rfl
  · simp only [Option.map_some]
    split
    · simp [CancellationChildren.retain, CancellationChildren.resetPruneThreshold, live]
    · rfl

theorem links_visit_subset {link : Nat}
    (linked : link ∈ (tokens.cancellationChildrenToCancel id).2.links other) :
    link ∈ tokens.links other := by
  rw [← @links_mark tokens id other]
  revert linked
  simp only [links, cancellationChildrenToCancel, getElem?_update]
  rcases (tokens.mark id).inner[other]? with _ | token
  · exact fun linked => linked
  · simp only [Option.map_some]
    split
    · exact fun linked => (token.children.retain_sublist tokens.held).subset linked
    · exact fun linked => linked

end Visit

end Views

section Reaching

/-- Links to held tokens lead from the first token to the second one. -/
inductive Reaches : Nat → Nat → Prop where
  | refl (id : Nat) : Reaches id id
  | step {id link last : Nat} (linked : link ∈ tokens.links id) (live : tokens.held link = true)
      (later : Reaches link last) : Reaches id last

variable {tokens}

theorem Reaches.snoc {id middle last : Nat} (reaches : tokens.Reaches id middle)
    (linked : last ∈ tokens.links middle) (live : tokens.held last = true) :
    tokens.Reaches id last := by
  induction reaches with
  | refl id => exact .step linked live (.refl last)
  | step first living _ ih => exact .step first living (ih linked)

theorem Reaches.of_agree {after : Cancellations} {id last : Nat}
    (held : ∀ other, after.held other = tokens.held other)
    (links : ∀ other link, tokens.held link = true →
      (link ∈ after.links other ↔ link ∈ tokens.links other))
    (reaches : tokens.Reaches id last) : after.Reaches id last := by
  induction reaches with
  | refl id => exact .refl id
  | step linked live _ ih => exact .step ((links _ _ live).mpr linked) ((held _).trans live) ih

theorem reaches_visit_iff {id first last : Nat} :
    (tokens.cancellationChildrenToCancel id).2.Reaches first last ↔ tokens.Reaches first last := by
  constructor
  · intro reaches
    exact Reaches.of_agree (fun other => held_visit.symm)
      (fun other link live => (@links_visit tokens id other link live).symm) reaches
  · intro reaches
    exact Reaches.of_agree (fun other => held_visit) (fun other link live =>
      links_visit live) reaches

/-- What a pass of the stack marks, and what it leaves as it is. -/
structure Cancels (before after : Cancellations) (stack : List Nat) : Prop where
  length : after.inner.length = before.inner.length
  parent : ∀ id, after.parent id = before.parent id
  held : ∀ id, after.held id = before.held id
  links : ∀ id link, before.held link = true → (link ∈ after.links id ↔ link ∈ before.links id)
  dead : ∀ id link, link ∈ after.links id → link ∈ before.links id
  flagged : ∀ id, after.flagged id = true ↔ before.flagged id = true ∨
    id < before.inner.length ∧ ∃ first ∈ stack, before.Reaches first id

theorem cancelLoop_cancels (tokens : Cancellations) (stack : List Nat) :
    Cancels tokens (tokens.cancelLoop stack) stack := by
  induction tokens, stack using cancelLoop.induct with
  | case1 tokens =>
      rw [cancelLoop]
      exact ⟨rfl, fun _ => rfl, fun _ => rfl, fun _ _ _ => Iff.rfl, fun _ _ linked =>
        linked, by simp⟩
  | case2 tokens id stack visited ih =>
      rw [cancelLoop]
      refine ⟨?_, ?_, ?_, ?_, ?_, ?_⟩
      · rw [ih.length, length_visit]
      · intro other
        rw [ih.parent, parent_visit]
      · intro other
        rw [ih.held, held_visit]
      · intro other link live
        rw [ih.links other link live]
        exact links_visit live
      · exact fun other link linked => links_visit_subset (ih.dead other link linked)
      · intro other
        rw [ih.flagged, flagged_visit, length_visit]
        constructor
        · rintro ((old | ⟨rfl, inside⟩) | ⟨inside, first, stacked, reaches⟩)
          · exact .inl old
          · exact .inr ⟨inside, other, mem_cons_self, .refl other⟩
          · have path := reaches_visit_iff.mp reaches
            rcases mem_append.mp stacked with child | waiting
            · rcases mem_filter.mp (mem_reverse.mp child) with ⟨linked, live⟩
              exact .inr ⟨inside, id, mem_cons_self, .step linked live path⟩
            · exact .inr ⟨inside, first, mem_cons_of_mem id waiting, path⟩
        · rintro (old | ⟨inside, first, stacked, reaches⟩)
          · exact .inl (.inl old)
          · rcases mem_cons.mp stacked with rfl | waiting
            · cases reaches with
              | refl => exact .inl (.inr ⟨rfl, inside⟩)
              | step linked live later =>
                  refine .inr ⟨inside, _, mem_append_left _ ?_, reaches_visit_iff.mpr later⟩
                  exact mem_reverse.mpr (mem_filter.mpr ⟨linked, live⟩)
            · exact .inr ⟨inside, first, mem_append_right _ waiting,
                reaches_visit_iff.mpr reaches⟩

end Reaching

section Ancestry

/-- The first token is the second one, or was made below it. -/
inductive Descends : Nat → Nat → Prop where
  | refl (id : Nat) : Descends id id
  | up {id parent above : Nat} (child : tokens.parent id = some parent)
      (later : Descends parent above) :
      Descends id above

variable {tokens}

theorem Descends.trans {id middle above : Nat} (first : tokens.Descends id middle)
    (second : tokens.Descends middle above) : tokens.Descends id above := by
  induction first with
  | refl id => exact second
  | up child _ ih => exact .up child (ih second)

theorem Descends.of_agree {after : Cancellations} {id above : Nat}
    (agree : ∀ other parent, tokens.parent other = some parent → after.parent other = some parent)
    (descends : tokens.Descends id above) : after.Descends id above := by
  induction descends with
  | refl id => exact .refl id
  | up child _ ih => exact .up (agree _ _ child) ih

/-- The walk upwards passes descendants of a cancelled token only. -/
theorem isCancelledLoop_sound {observed out : List Nat} {current : Option Nat}
    (answer : tokens.isCancelledLoop observed current = some out) :
    ∃ above source, current = some above ∧ tokens.flagged source = true ∧
      tokens.Descends above source ∧
      ∀ passed ∈ out, passed ∈ observed ∨ tokens.Descends passed source := by
  induction observed, current using isCancelledLoop.induct tokens with
  | case1 observed =>
      rw [isCancelledLoop] at answer
      contradiction
  | case2 observed above live missing =>
      rw [isCancelledLoop, if_pos live] at answer
      split at answer
      · contradiction
      · simp_all
  | case3 observed above live token found cancelled =>
      rw [isCancelledLoop, if_pos live] at answer
      split at answer
      · contradiction
      case h_2 other same =>
        rw [found] at same
        cases same
        rw [if_pos cancelled] at answer
        cases answer
        exact ⟨above, above, rfl, by simp [flagged, found, cancelled], .refl above, fun _ passed =>
          .inl passed⟩
  | case4 observed above live token found going ih =>
      rw [isCancelledLoop, if_pos live] at answer
      split at answer
      · contradiction
      case h_2 other same =>
        rw [found] at same
        cases same
        rw [if_neg going] at answer
        rcases ih answer with ⟨parent, source, childOf, cancelled, descends, passed⟩
        have child : tokens.parent above = some parent := by
          simp [Cancellations.parent, found, childOf]
        refine ⟨above, source, rfl, cancelled, .up child descends, fun other among => ?_⟩
        rcases passed other among with old | below
        · rcases mem_append.mp old with earlier | last
          · exact .inl earlier
          · rw [mem_singleton.mp last]
            exact .inr (.up child descends)
        · exact .inr below
  | case5 observed above gone =>
      rw [isCancelledLoop, if_neg gone] at answer
      contradiction

/-- An answer that latches: the tokens and what they look like afterwards. -/
structure Latches (before after : Cancellations) : Prop where
  length : after.inner.length = before.inner.length
  parent : ∀ id, after.parent id = before.parent id
  held : ∀ id, after.held id = before.held id
  links : ∀ id, after.links id = before.links id
  grows : ∀ id, before.flagged id = true → after.flagged id = true
  sound : ∀ id, after.flagged id = true → before.flagged id = true ∨
    ∃ source, before.flagged source = true ∧ before.Descends id source

theorem Latches.refl (tokens : Cancellations) : Latches tokens tokens :=
  ⟨rfl, fun _ => rfl, fun _ => rfl, fun _ => rfl, fun _ flagged => flagged, fun _ flagged =>
    .inl flagged⟩

theorem Latches.mark {before after : Cancellations} (latches : Latches before after)
    {id source : Nat}
    (flagged : before.flagged source = true) (descends : before.Descends id source) :
    Latches before (after.mark id) where
  length := by rw [← latches.length]; exact length_update
  parent := fun other => by rw [← latches.parent other]; exact parent_update
  held := latches.held
  links := fun other => by rw [links_mark, latches.links]
  grows := fun other old => flagged_mark.mpr (.inl (latches.grows other old))
  sound := by
    intro other now
    rcases flagged_mark.mp now with old | ⟨rfl, _⟩
    · exact latches.sound other old
    · exact .inr ⟨source, flagged, descends⟩

theorem Latches.marks {before after : Cancellations} (latches : Latches before after) {source : Nat}
    {passed : List Nat} (flagged : before.flagged source = true)
    (descend : ∀ id ∈ passed, before.Descends id source) :
    Latches before (passed.foldl Cancellations.mark after) := by
  induction passed generalizing after with
  | nil => exact latches
  | cons id passed ih =>
      apply ih (latches.mark flagged (descend id mem_cons_self))
      exact fun other among => descend other (mem_cons_of_mem id among)

theorem isCancelled_latches (tokens : Cancellations) (id : Nat) :
    Latches tokens (tokens.isCancelled id).2 ∧ ((tokens.isCancelled id).1 = true →
      ∃ source, tokens.flagged source = true ∧ tokens.Descends id source) := by
  unfold isCancelled
  split
  case isTrue flagged => exact ⟨.refl tokens, fun _ => ⟨id, flagged, .refl id⟩⟩
  case isFalse _ =>
    split
    case h_1 out answer =>
      rcases isCancelledLoop_sound answer with ⟨above, source, child, flagged, descends, passed⟩
      have below := Descends.up child descends
      refine ⟨((Latches.refl tokens).mark flagged below).marks flagged ?_, fun _ =>
        ⟨source, flagged, below⟩⟩
      intro other among
      rcases passed other among with old | descends
      · exact absurd old not_mem_nil
      · exact descends
    case h_2 none => exact ⟨.refl tokens, fun answer => nomatch answer⟩

end Ancestry

section Adding

variable {tokens}

/-- A new token with this flag and this parent, which links to it. -/
structure Adds (before after : Cancellations) (above : Option Nat) (flag : Bool) : Prop where
  length : after.inner.length = before.inner.length + 1
  newParent : after.parent before.inner.length = above
  parent : ∀ id < before.inner.length, after.parent id = before.parent id
  held : ∀ id, after.held id = true ↔ id = before.inner.length ∨ before.held id = true
  linked : ∀ id link, before.held link = true → link ∈ before.links id → link ∈ after.links id
  newLinked : ∀ id, above = some id → before.inner.length ∈ after.links id
  links : ∀ id link, link ∈ after.links id →
    link ∈ before.links id ∨ above = some id ∧ link = before.inner.length
  newFlagged : after.flagged before.inner.length = flag
  flagged : ∀ id < before.inner.length, after.flagged id = before.flagged id

theorem add_old {token : CancellationInner}
    {above : ∀ parent, token.parent = some parent → parent < tokens.inner.length}
    {childless : token.children.links = []} {id : Nat} (old : id < tokens.inner.length) :
    (tokens.add token above childless).inner[id]? = tokens.inner[id]? := by
  simp [add, getElem?_append, old]

theorem add_new {token : CancellationInner}
    {above : ∀ parent, token.parent = some parent → parent < tokens.inner.length}
    {childless : token.children.links = []} {id : Nat} (new : tokens.inner.length = id) :
    (tokens.add token above childless).inner[id]? = some token := by
  simp [add, ← new]

theorem links_add {token : CancellationInner}
    {above : ∀ parent, token.parent = some parent → parent < tokens.inner.length}
    {childless : token.children.links = []} {id : Nat} :
    (tokens.add token above childless).links id = tokens.links id := by
  rcases Nat.lt_trichotomy id tokens.inner.length with old | rfl | beyond
  · simp [links, add_old old]
  · simp [links, add_new rfl, childless]
  · have outside : tokens.inner.length + 1 ≤ id := beyond
    have before : tokens.inner[id]? = none := getElem?_eq_none (Nat.le_of_succ_le outside)
    have after : (tokens.add token above childless).inner[id]? = none := by
      apply getElem?_eq_none
      simpa [add] using outside
    simp [links, before, after]

theorem defaultToken_adds (tokens : Cancellations) :
    Adds tokens tokens.defaultToken none false where
  length := by simp [defaultToken, add]
  newParent := by simp [parent, defaultToken, add_new rfl]
  parent := fun id old => by simp [parent, defaultToken, add_old old]
  held := fun id => by simp [held, defaultToken, add]
  linked := fun id link _ linked => by rw [defaultToken, links_add]; exact linked
  newLinked := fun _ absent => nomatch absent
  links := fun id link linked => by rw [defaultToken, links_add] at linked; exact .inl linked
  newFlagged := by simp [flagged, defaultToken, add_new rfl]
  flagged := fun id old => by simp [flagged, defaultToken, add_old old]

theorem links_pruned {id other link : Nat} (live : tokens.held link = true) :
    link ∈ (tokens.pruned id).links other ↔ link ∈ tokens.links other := by
  simp only [links, pruned, getElem?_update]
  rcases tokens.inner[other]? with _ | token
  · rfl
  · simp only [Option.map_some]
    split
    · exact CancellationChildren.mem_pruneIfNeeded live
    · rfl

theorem links_pruned_subset {id other link : Nat} (linked : link ∈ (tokens.pruned id).links other) :
    link ∈ tokens.links other := by
  revert linked
  simp only [links, pruned, getElem?_update]
  rcases tokens.inner[other]? with _ | token
  · exact fun linked => linked
  · simp only [Option.map_some]
    split
    · exact fun linked => (token.children.pruneIfNeeded_sublist tokens.held).subset linked
    · exact fun linked => linked

theorem flagged_pruned {id other : Nat} :
    (tokens.pruned id).flagged other = tokens.flagged other := by
  simp only [flagged, pruned, getElem?_update]
  rcases tokens.inner[other]? with _ | token
  · rfl
  · simp only [Option.map_some]
    split <;> rfl

section Push

variable {id : Nat} {newest : id + 1 < tokens.inner.length}
  {fresh : ∀ link ∈ tokens.links id, link + 1 < tokens.inner.length}

theorem getElem?_pushLink {other : Nat} : (tokens.pushLink id newest fresh).inner[other]? =
    tokens.inner[other]?.map fun token => if id = other then
      { token with children := { token.children with
        links := token.children.links ++ [tokens.inner.length - 1] } } else token := by
  simp only [pushLink, getElem?_modify]
  rfl

theorem parent_pushLink {other : Nat} :
    (tokens.pushLink id newest fresh).parent other = tokens.parent other := by
  simp only [parent, getElem?_pushLink]
  rcases tokens.inner[other]? with _ | token
  · rfl
  · simp only [Option.map_some, Option.bind_some]
    split <;> rfl

theorem flagged_pushLink {other : Nat} :
    (tokens.pushLink id newest fresh).flagged other = tokens.flagged other := by
  simp only [flagged, getElem?_pushLink]
  rcases tokens.inner[other]? with _ | token
  · rfl
  · simp only [Option.map_some]
    split <;> rfl

theorem links_pushLink {other link : Nat} : link ∈ (tokens.pushLink id newest fresh).links other ↔
    link ∈ tokens.links other ∨ other = id ∧ link = tokens.inner.length - 1 := by
  simp only [links, getElem?_pushLink]
  by_cases same : id = other
  · have inside : other < tokens.inner.length := by omega
    simp [same, getElem?_eq_getElem inside]
  · have different : ¬other = id := fun equal => same equal.symm
    rcases tokens.inner[other]? with _ | token <;> simp [same, different]

end Push

theorem child_adds {id : Nat} (valid : id < tokens.inner.length) :
    Adds (tokens.isCancelled id).2 (tokens.child id) (some id) (tokens.isCancelled id).1 := by
  have latches := (isCancelled_latches tokens id).1
  have inside : id < (tokens.isCancelled id).2.inner.length := by rw [latches.length]; exact valid
  have same : ((tokens.isCancelled id).2.pruned id).inner.length =
    (tokens.isCancelled id).2.inner.length :=
    length_update
  unfold child
  simp only [inside, dite_true]
  refine ⟨?_, ?_, ?_, ?_, ?_, ?_, ?_, ?_, ?_⟩
  · simp [pushLink, add, same]
  · rw [parent_pushLink, parent, add_new same]
    rfl
  · intro other old
    rw [parent_pushLink, parent, add_old (by rw [same]; exact old)]
    exact parent_update
  · intro other
    simp [held, pushLink, add, pruned, update]
  · intro other link live linked
    rw [links_pushLink, links_add]
    exact .inl ((links_pruned live).mpr linked)
  · rintro other ⟨⟩
    rw [links_pushLink]
    refine .inr ⟨rfl, ?_⟩
    simp [add, same]
  · intro other link linked
    rw [links_pushLink, links_add] at linked
    rcases linked with old | ⟨rfl, new⟩
    · exact .inl (links_pruned_subset old)
    · refine .inr ⟨rfl, ?_⟩
      simpa [add, same] using new
  · rw [flagged_pushLink, flagged, add_new same]
  · intro other old
    rw [flagged_pushLink, flagged, add_old (by rw [same]; exact old)]
    exact flagged_pruned

end Adding

end Cancellations

section Runs

inductive CancellationOperation where
  | default
  | clone (id : Nat)
  | child (id : Nat)
  | drop (id : Nat)
  | cancel (id : Nat)
  | isCancelled (id : Nat)
  deriving DecidableEq, Repr

/-- The tokens, and those on which cancel was called. -/
structure CancellationRun where
  tokens : Cancellations
  called : List Nat

namespace CancellationRun

def start : CancellationRun := ⟨.empty, []⟩

/-- Only a handle that is held can be used. -/
def perform (run : CancellationRun) (operation : CancellationOperation) : CancellationRun :=
  match operation with
  | .default => { run with tokens := run.tokens.defaultToken }
  | .clone id => if run.tokens.held id then { run with tokens := run.tokens.clone id } else run
  | .child id => if run.tokens.held id then { run with tokens := run.tokens.child id } else run
  | .drop id => { run with tokens := run.tokens.drop id }
  | .cancel id =>
      if run.tokens.held id then { tokens := run.tokens.cancel id, called := id :: run.called }
        else run
  | .isCancelled id =>
      if run.tokens.held id then { run with tokens := (run.tokens.isCancelled id).2 } else run

def performAll (run : CancellationRun) (operations : List CancellationOperation) :
    CancellationRun :=
  operations.foldl perform run

/-- Cancel was called on the token or on one that it descends from. -/
def Due (run : CancellationRun) (id : Nat) : Prop :=
  ∃ source ∈ run.called, run.tokens.Descends id source

/-- The held tokens that report cancelled are exactly those that are due. -/
def Faithful (run : CancellationRun) : Prop :=
  ∀ id, run.tokens.held id = true → ((run.tokens.isCancelled id).1 = true ↔ run.Due id)

/-- A held descendant that is not cancelled yet is cut off: a token between is no longer held. -/
def Severed (run : CancellationRun) (id : Nat) : Prop :=
  ∃ descendant between, run.tokens.held descendant = true ∧
    (run.tokens.isCancelled descendant).1 = false ∧ run.tokens.Descends descendant between ∧
    run.tokens.Descends between id ∧ between ≠ id ∧ run.tokens.held between = false

def Severs (run : CancellationRun) (operation : CancellationOperation) : Prop :=
  match operation with
  | .cancel id => run.tokens.held id = true ∧ run.Severed id
  | _ => False

structure Sound (run : CancellationRun) : Prop where
  valid : ∀ id, run.tokens.held id = true → id < run.tokens.inner.length
  calledValid : ∀ id ∈ run.called, id < run.tokens.inner.length
  linked : ∀ id above, run.tokens.held id = true → run.tokens.parent id = some above →
    id ∈ run.tokens.links above
  childOf : ∀ above id, id ∈ run.tokens.links above → run.tokens.parent id = some above
  accounted : ∀ id, run.tokens.flagged id = true → run.Due id
  reached : ∀ id, run.tokens.held id = true → run.Due id → run.tokens.flagged id = true

namespace Sound

variable {run : CancellationRun}

theorem start : start.Sound where
  valid := fun id live => by
    simp [CancellationRun.start, Cancellations.empty, Cancellations.held] at live
  calledValid := fun id among => absurd among not_mem_nil
  linked := fun id above live => by
    simp [CancellationRun.start, Cancellations.empty, Cancellations.held] at live
  childOf := fun above id linked => by
    simp [CancellationRun.start, Cancellations.empty, Cancellations.links] at linked
  accounted := fun id flagged => by
    simp [CancellationRun.start, Cancellations.empty, Cancellations.flagged] at flagged
  reached := fun id live => by
    simp [CancellationRun.start, Cancellations.empty, Cancellations.held] at live

theorem faithful (sound : run.Sound) : run.Faithful := by
  intro id live
  constructor
  · intro answer
    rcases (Cancellations.isCancelled_latches run.tokens id).2 answer
      with ⟨source, flagged, descends⟩
    rcases sound.accounted source flagged with ⟨called, among, above⟩
    exact ⟨called, among, descends.trans above⟩
  · intro due
    rw [Cancellations.isCancelled, if_pos (sound.reached id live due)]

theorem due_of_agree (run : CancellationRun) (tokens : Cancellations)
    (parent : ∀ id, tokens.parent id = run.tokens.parent id) (id : Nat) :
    ({ run with tokens } : CancellationRun).Due id ↔ run.Due id := by
  unfold Due
  refine exists_congr fun source => and_congr_right fun _ => ⟨?_, ?_⟩
  · exact Cancellations.Descends.of_agree fun other above child => (parent other).symm.trans child
  · exact Cancellations.Descends.of_agree fun other above child => (parent other).trans child

theorem latch (sound : run.Sound) {tokens : Cancellations} (latches : run.tokens.Latches tokens) :
    ({ run with tokens } : CancellationRun).Sound where
  valid := fun id live => by
    rw [latches.length]
    exact sound.valid id ((latches.held id).symm.trans live)
  calledValid := fun id among => by
    rw [latches.length]
    exact sound.calledValid id among
  linked := fun id above live child => by
    rw [latches.links]
    exact sound.linked id above ((latches.held id).symm.trans live)
      ((latches.parent id).symm.trans child)
  childOf := fun above id linked => by
    rw [latches.parent]
    exact sound.childOf above id (latches.links above ▸ linked)
  accounted := fun id flagged => by
    apply (due_of_agree run tokens latches.parent id).mpr
    rcases latches.sound id flagged with old | ⟨source, marked, descends⟩
    · exact sound.accounted id old
    · rcases sound.accounted source marked with ⟨called, among, above⟩
      exact ⟨called, among, descends.trans above⟩
  reached := fun id live due => by
    apply latches.grows
    exact sound.reached id ((latches.held id).symm.trans live)
      ((due_of_agree run tokens latches.parent id).mp due)

/-- Other handles: what is held is held still, or was held by another handle. -/
theorem rehold (sound : run.Sound) {handles : List Nat}
    (fewer : ∀ id ∈ handles, run.tokens.held id = true) :
    ({ run with tokens := { run.tokens with handles } } : CancellationRun).Sound := by
  have live : ∀ id, handles.contains id = true → run.tokens.held id = true := fun id among =>
    fewer id (contains_iff_mem.mp among)
  exact {
    valid := fun id held => sound.valid id (live id held)
    calledValid := sound.calledValid
    linked := fun id above held child => sound.linked id above (live id held) child
    childOf := sound.childOf
    accounted := fun id flagged =>
      (due_of_agree run { run.tokens with handles } (fun _ => rfl) id).mpr
        (sound.accounted id flagged)
    reached := fun id held due => sound.reached id (live id held)
      ((due_of_agree run { run.tokens with handles } (fun _ => rfl) id).mp due) }

theorem grow (sound : run.Sound) {tokens : Cancellations} {above : Option Nat} {flag : Bool}
    (adds : run.tokens.Adds tokens above flag)
    (known : ∀ id, above = some id → id < run.tokens.inner.length)
    (flags : flag = true ↔ ∃ id, above = some id ∧ run.Due id) :
    ({ run with tokens } : CancellationRun).Sound := by
  have agree : ∀ id parent, run.tokens.parent id = some parent →
    tokens.parent id = some parent := by
    intro id parent child
    rw [adds.parent id (run.tokens.parent_lt child).2, child]
  have older : ∀ {id source : Nat}, tokens.Descends id source → id < run.tokens.inner.length →
      run.tokens.Descends id source := by
    intro id source descends
    induction descends with
    | refl id => exact fun _ => .refl id
    | up child _ ih =>
        intro old
        rw [adds.parent _ old] at child
        have before := (run.tokens.parent_lt child).1
        exact .up child (ih (by omega))
  have dueOld : ∀ id, id < run.tokens.inner.length →
      (({ run with tokens } : CancellationRun).Due id ↔ run.Due id) := by
    intro id old
    refine exists_congr fun source => and_congr_right fun _ =>
      ⟨fun descends => older descends old, ?_⟩
    exact Cancellations.Descends.of_agree agree
  have dueNew : ({ run with tokens } : CancellationRun).Due run.tokens.inner.length ↔
    flag = true := by
    rw [flags]
    constructor
    · rintro ⟨source, among, descends⟩
      cases descends with
      | refl => exact absurd (sound.calledValid _ among) (Nat.lt_irrefl _)
      | up child later =>
          have childOf := adds.newParent.symm.trans child
          exact ⟨_, childOf, source, among, older later (known _ childOf)⟩
    · rintro ⟨id, rfl, source, among, descends⟩
      exact ⟨source, among, .up adds.newParent (Cancellations.Descends.of_agree agree descends)⟩
  exact {
    valid := fun id live => by
      rw [adds.length]
      rcases (adds.held id).mp live with rfl | old
      · exact Nat.lt_succ_self _
      · exact Nat.lt_succ_of_lt (sound.valid id old)
    calledValid := fun id among => by
      rw [adds.length]
      exact Nat.lt_succ_of_lt (sound.calledValid id among)
    linked := fun id parent live child => by
      rcases (adds.held id).mp live with rfl | old
      · exact adds.newLinked parent (adds.newParent.symm.trans child)
      · rw [adds.parent id (sound.valid id old)] at child
        exact adds.linked parent id old (sound.linked id parent old child)
    childOf := fun parent id linked => by
      rcases adds.links parent id linked with old | ⟨new, rfl⟩
      · exact agree id parent (sound.childOf parent id old)
      · exact adds.newParent.trans new
    accounted := fun id flagged => by
      rcases Nat.lt_trichotomy id run.tokens.inner.length with old | rfl | beyond
      · rw [adds.flagged id old] at flagged
        exact (dueOld id old).mpr (sound.accounted id flagged)
      · rw [adds.newFlagged] at flagged
        exact dueNew.mpr flagged
      · have missing : tokens.inner[id]? = none :=
          getElem?_eq_none (by rw [adds.length]; omega)
        simp [Cancellations.flagged, missing] at flagged
    reached := fun id live due => by
      rcases (adds.held id).mp live with rfl | old
      · rw [adds.newFlagged]
        exact dueNew.mp due
      · rw [adds.flagged id (sound.valid id old)]
        exact sound.reached id old ((dueOld id (sound.valid id old)).mp due) }

/-- Where every token on the way up is held, the links lead down to this one. -/
theorem reaches_of_held (sound : run.Sound) {id above : Nat}
    (descends : run.tokens.Descends id above)
    (live : ∀ between, run.tokens.Descends id between → run.tokens.Descends between above →
      between ≠ above → run.tokens.held between = true) : run.tokens.Reaches above id := by
  induction descends with
  | refl id => exact .refl id
  | @up id parent above child later ih =>
      by_cases same : id = above
      · rw [same]
        exact .refl above
      · have held := live id (.refl id) (.up child later) same
        have reaches := ih fun between down up different =>
          live between (.up child down) up different
        exact reaches.snoc (sound.linked id parent held child) held

/-- Where nothing is cut off, the pass reaches every held descendant that is not cancelled yet. -/
theorem cancel (sound : run.Sound) {id : Nat} (live : run.tokens.held id = true)
    (whole : ¬run.Severed id) :
    ({ tokens := run.tokens.cancel id, called := id :: run.called } : CancellationRun).Sound := by
  have cancels := Cancellations.cancelLoop_cancels run.tokens [id]
  have below : ∀ {first last}, run.tokens.Reaches first last → run.tokens.Descends last first := by
    intro first last reaches
    induction reaches with
    | refl id => exact .refl id
    | step linked _ _ ih => exact ih.trans (.up (sound.childOf _ _ linked) (.refl _))
  have agree : ∀ {first last}, (run.tokens.cancelLoop [id]).Descends first last ↔
      run.tokens.Descends first last := by
    intro first last
    constructor
    · exact Cancellations.Descends.of_agree fun other above child =>
        (cancels.parent other).symm.trans child
    · exact Cancellations.Descends.of_agree fun other above child =>
        (cancels.parent other).trans child
  exact {
    valid := fun other held => by
      rw [Cancellations.cancel, cancels.length]
      exact sound.valid other ((cancels.held other).symm.trans held)
    calledValid := fun other among => by
      rw [Cancellations.cancel, cancels.length]
      rcases mem_cons.mp among with rfl | old
      · exact sound.valid other live
      · exact sound.calledValid other old
    linked := fun other above held child => by
      have before := (cancels.held other).symm.trans held
      rw [Cancellations.cancel, cancels.links above other before]
      exact sound.linked other above before ((cancels.parent other).symm.trans child)
    childOf := fun above other linked =>
      (cancels.parent other).trans (sound.childOf above other (cancels.dead above other linked))
    accounted := fun other flagged => by
      rcases (cancels.flagged other).mp flagged with old | ⟨_, first, only, reaches⟩
      · rcases sound.accounted other old with ⟨source, among, descends⟩
        exact ⟨source, mem_cons_of_mem id among, agree.mpr descends⟩
      · rcases mem_singleton.mp only with rfl
        exact ⟨first, mem_cons_self, agree.mpr (below reaches)⟩
    reached := fun other held due => by
      have before := (cancels.held other).symm.trans held
      rcases due with ⟨source, among, descends⟩
      have descends := agree.mp descends
      apply (cancels.flagged other).mpr
      by_cases already : run.Due other
      · exact .inl (sound.reached other before already)
      · refine .inr ⟨sound.valid other before, id, mem_singleton.mpr rfl, ?_⟩
        have top : source = id := by
          rcases mem_cons.mp among with same | old
          · exact same
          · exact absurd ⟨source, old, descends⟩ already
        rw [top] at descends
        have silent : (run.tokens.isCancelled other).1 = false := by
          rw [← Bool.not_eq_true]
          exact fun answer => already ((sound.faithful other before).mp answer)
        apply sound.reaches_of_held descends
        intro between down up different
        by_contra gone
        exact whole ⟨other, between, before, silent, down, up, different,
          Bool.not_eq_true _ ▸ gone⟩ }

theorem perform (sound : run.Sound) {operation : CancellationOperation}
    (whole : ¬run.Severs operation) : (run.perform operation).Sound := by
  cases operation with
  | default =>
      apply sound.grow run.tokens.defaultToken_adds
      · exact fun _ absent => nomatch absent
      · simp
  | clone id =>
      unfold CancellationRun.perform
      simp only
      split
      case isTrue live =>
        apply sound.rehold
        intro other among
        rcases mem_cons.mp among with rfl | old
        · exact live
        · exact contains_iff_mem.mpr old
      case isFalse _ => exact sound
  | child id =>
      unfold CancellationRun.perform
      simp only
      split
      case isTrue live =>
        have valid := sound.valid id live
        have latches := (Cancellations.isCancelled_latches run.tokens id).1
        have asked := sound.latch latches
        apply asked.grow (Cancellations.child_adds valid)
        · rintro other ⟨⟩
          exact latches.length ▸ valid
        · rw [(sound.faithful id live), ← due_of_agree run _ latches.parent id]
          simp
      case isFalse _ => exact sound
  | drop id =>
      apply sound.rehold
      exact fun other among => contains_iff_mem.mpr (mem_of_mem_erase among)
  | cancel id =>
      unfold CancellationRun.perform
      simp only
      split
      case isTrue live => exact sound.cancel live fun severed => whole ⟨live, severed⟩
      case isFalse _ => exact sound
  | isCancelled id =>
      unfold CancellationRun.perform
      simp only
      split
      case isTrue _ => exact sound.latch (Cancellations.isCancelled_latches run.tokens id).1
      case isFalse _ => exact sound

end Sound

/-- No cancel of the run finds a descendant that is cut off from its token. -/
def Unsevered : CancellationRun → List CancellationOperation → Prop
  | _, [] => True
  | run, operation :: operations => ¬run.Severs operation ∧
      (run.perform operation).Unsevered operations

theorem Sound.performAll {run : CancellationRun} (sound : run.Sound)
    (operations : List CancellationOperation)
    (unsevered : run.Unsevered operations) (done : List CancellationOperation)
    (reached : done <+: operations) :
    (run.performAll done).Sound := by
  induction operations generalizing run done with
  | nil =>
      rw [prefix_nil.mp reached]
      exact sound
  | cons operation operations ih =>
      cases done with
      | nil => exact sound
      | cons head done =>
          rcases cons_prefix_cons.mp reached with ⟨rfl, shorter⟩
          exact ih (sound.perform unsevered.1) unsevered.2 done shorter

/-- In a run in which no cancel is cut off from a held descendant, the held tokens that report
cancelled are, in every state reached, exactly those on or above which cancel was called. -/
theorem cancellation_faithful (operations : List CancellationOperation)
    (unsevered : start.Unsevered operations) :
    ∀ done, done <+: operations → (start.performAll done).Faithful :=
  fun done reached => (Sound.start.performAll operations unsevered done reached).faithful

/-- With the handle of the child in between still held, the grandchild is reached. -/
theorem cancellation_faithful_chain :
    (start.performAll [.default, .child 0, .child 1, .cancel 0]).Faithful := by
  apply cancellation_faithful [.default, .child 0, .child 1, .cancel 0] ?_ _ (prefix_refl _)
  refine ⟨fun severs => severs, fun severs => severs, fun severs => severs, ?_, trivial⟩
  rintro ⟨_, descendant, between, _, _, _, up, different, gone⟩
  cases up with
  | refl => exact different rfl
  | up child later =>
      have inside := (Cancellations.parent_lt _ child).2
      have three : (start.performAll [.default, .child 0, .child 1]).tokens.inner.length = 3 := by
        decide +kernel
      have all : ∀ id < 3, (start.performAll [.default, .child 0, .child 1]).tokens.held id =
        true := by
        decide +kernel
      have live := all between (three ▸ inside)
      exact Bool.false_ne_true (gone.symm.trans live)

/-- The handle of the child is dropped before the root is cancelled: the grandchild is missed. -/
theorem cancellation_severed :
    ¬(start.performAll [.default, .child 0, .child 1, .drop 1, .cancel 0]).Faithful := by
  intro faithful
  have answer := (faithful 2 (by decide +kernel)).mpr ⟨0, by decide +kernel, ?_⟩
  · exact absurd answer (by decide +kernel)
  · exact .up (by decide +kernel : _ = some 1) (.up (by decide +kernel : _ = some 0) (.refl 0))

end CancellationRun

end Runs

end Gfm.Jobs
