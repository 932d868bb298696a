import Gfm.Search.PhraseMatching
import Gfm.Search.QueryParsing

/-!
# Terms near each other

A proximity is looked for around the places of its anchor, which is the term of the content that
has the fewest, and the first of several such terms. More places of one term can make another one
the anchor: a match is safe from that if every term has a place that is near to all the others.
-/

namespace Gfm.Search

open List Occurrences Postings Sorted

/-- A 32-bit place within the distance of the anchor. -/
def IsNear (distance anchor place : Nat) : Prop :=
  anchor - distance ≤ place ∧ place ≤ min (anchor + distance) (2 ^ 32 - 1)

theorem isNear_self {distance place : Nat} (bound : place < 2 ^ 32) :
    IsNear distance place place := by
  unfold IsNear
  omega

theorem IsNear.symm {distance anchor place : Nat} (bound : anchor < 2 ^ 32)
    (near : IsNear distance anchor place) : IsNear distance place anchor := by
  unfold IsNear at *
  omega

/-- Stored positions ascend, and they are 32-bit numbers. -/
def IsPositionList (positions : List Nat) : Prop :=
  positions.Pairwise (· < ·) ∧ ∀ place ∈ positions, place < 2 ^ 32

theorem sortedHasPositionWithin_iff {positions : List Nat} {anchor distance : Nat}
    (ascending : positions.Pairwise (· < ·)) :
    sortedHasPositionWithin positions anchor distance = true ↔
      ∃ place ∈ positions, IsNear distance anchor place := by
  rw [sortedHasPositionWithin]
  induction positions with
  | nil => simp
  | cons first positions ih =>
      rw [pairwise_cons] at ascending
      by_cases below : first < anchor - distance
      · rw [dropWhile_cons_of_pos (by simpa using below), ih ascending.2]
        have far : ¬IsNear distance anchor first := fun near => absurd near.1 (by omega)
        simp [far]
      · rw [dropWhile_cons_of_neg (by simpa using below)]
        simp only [head?_cons, Option.any_some, decide_eq_true_eq]
        constructor
        · intro upTo
          exact ⟨first, mem_cons_self, by omega, upTo⟩
        · rintro ⟨place, member, -, upTo⟩
          rcases mem_cons.mp member with rfl | later
          · exact upTo
          · exact (ascending.1 place later).le.trans upTo

namespace SearchIndex

variable {index later : SearchIndex} {id : FileId} {term : Text} {proximity : QueryProximity}

/-- Around some place of the term, all the terms of the proximity have places. -/
def Centred (index : SearchIndex) (id : FileId) (proximity : QueryProximity) (term : Text) :
    Prop :=
  ∃ anchors, index.termPositions id term = some anchors ∧ ∃ anchor ∈ anchors,
    ∀ other ∈ proximity.terms, ∃ positions, index.termPositions id other = some positions ∧
      ∃ place ∈ positions, IsNear proximity.distance anchor place

/-- The places of the terms are position lists. -/
def Ordered (index : SearchIndex) (id : FileId) (terms : List Text) : Prop :=
  ∀ term ∈ terms, ∀ positions, index.termPositions id term = some positions →
    IsPositionList positions

/-- Every place of the terms is kept. -/
def Grows (index later : SearchIndex) (id : FileId) (terms : List Text) : Prop :=
  ∀ term ∈ terms, ∀ positions, index.termPositions id term = some positions →
    ∃ more, later.termPositions id term = some more ∧ positions ⊆ more

theorem Centred.grows (centred : index.Centred id proximity term) (member : term ∈ proximity.terms)
    (grows : index.Grows later id proximity.terms) : later.Centred id proximity term := by
  rcases centred with ⟨anchors, found, anchor, isAnchor, near⟩
  rcases grows term member anchors found with ⟨more, laterFound, kept⟩
  refine ⟨more, laterFound, anchor, kept isAnchor, fun other otherMember => ?_⟩
  rcases near other otherMember with ⟨positions, otherFound, place, listed, isNear⟩
  rcases grows other otherMember positions otherFound with ⟨others, laterOther, keptOther⟩
  exact ⟨others, laterOther, place, keptOther listed, isNear⟩

/-- The places of a term, none if the content does not have it. -/
def termPlaces (index : SearchIndex) (id : FileId) (term : Text) : List Nat :=
  (index.termPositions id term).getD []

theorem termPositions_of_isSome (has : (index.termPositions id term).isSome = true) :
    index.termPositions id term = some (index.termPlaces id term) := by
  rcases Option.isSome_iff_exists.mp has with ⟨positions, found⟩
  rw [termPlaces, found, Option.getD_some]

/-- A record matches if its content has every term and the anchor is centred. -/
theorem contentMatchesProximity_iff (ordered : index.Ordered id proximity.terms) :
    index.contentMatchesProximity id proximity = true ↔
      (∀ term ∈ proximity.terms, (index.termPositions id term).isSome = true) ∧
        ∃ anchorIndex term, proximity.terms[anchorIndex]? = some term ∧
          anchorPositions (proximity.terms.map (index.termPlaces id)) =
            some (index.termPlaces id term, anchorIndex) ∧
          index.Centred id proximity term := by
  rw [contentMatchesProximity]
  by_cases all : ∀ term ∈ proximity.terms, (index.termPositions id term).isSome = true
  · have found (term : Text) (member : term ∈ proximity.terms) :=
      termPositions_of_isSome (all term member)
    rw [mapM_of_some found, and_iff_right all]
    by_cases empty : proximity.terms = []
    · simp [empty, anchorPositions]
    rcases anchorPositions_map (index.termPlaces id) empty with ⟨anchorIndex, term, there, anchor⟩
    have member := mem_of_getElem? there
    simp only [anchor, Option.any_some, any_eq_true, all_eq_true, Prod.forall,
      mem_zipIdx_iff_getElem?, Bool.or_eq_true, decide_eq_true_eq, getElem?_map,
      Option.map_eq_some_iff]
    constructor
    · rintro ⟨place, isAnchor, near⟩
      refine ⟨anchorIndex, term, there, rfl, _, found term member, place, isAnchor, ?_⟩
      intro other otherMember
      have lists := ordered other otherMember _ (found other otherMember)
      refine ⟨_, found other otherMember, ?_⟩
      rcases mem_iff_getElem?.mp otherMember with ⟨otherIndex, otherThere⟩
      rcases near _ otherIndex ⟨other, otherThere, rfl⟩ with rfl | within
      · rw [there] at otherThere
        cases otherThere
        exact ⟨place, isAnchor, isNear_self (lists.2 place isAnchor)⟩
      · exact (sortedHasPositionWithin_iff lists.1).mp within
    · rintro ⟨sameIndex, sameTerm, sameThere, sameAnchor, anchors, isFound, place, isAnchor, near⟩
      rw [Option.some.injEq, Prod.mk.injEq] at sameAnchor
      obtain ⟨-, rfl⟩ := sameAnchor
      rw [there] at sameThere
      cases sameThere
      rw [found term member] at isFound
      cases isFound
      refine ⟨place, isAnchor, fun _ otherIndex entry => Or.inr ?_⟩
      rcases entry with ⟨other, otherThere, rfl⟩
      have otherMember := mem_of_getElem? otherThere
      rcases near other otherMember with ⟨positions, otherFound, within⟩
      rw [found other otherMember] at otherFound
      cases otherFound
      exact (sortedHasPositionWithin_iff
        (ordered other otherMember _ (found other otherMember)).1).mpr within
  · cases found : proximity.terms.mapM (index.termPositions id) with
    | none => exact iff_of_false Bool.false_ne_true fun both => all both.1
    | some positions => exact absurd (isSome_of_mapM found) all

/-- With every term centred it does not matter which of them is the anchor. -/
theorem matches_of_centred (nonempty : proximity.terms ≠ [])
    (ordered : index.Ordered id proximity.terms)
    (centred : ∀ term ∈ proximity.terms, index.Centred id proximity term) :
    index.contentMatchesProximity id proximity = true := by
  rw [contentMatchesProximity_iff ordered]
  rcases anchorPositions_map (index.termPlaces id) nonempty with ⟨anchorIndex, term, there, anchor⟩
  refine ⟨fun other member => ?_, anchorIndex, term, there, anchor,
    centred term (mem_of_getElem? there)⟩
  rcases centred other member with ⟨positions, found, -⟩
  rw [found]
  rfl

theorem centred_of_matches (ordered : index.Ordered id proximity.terms)
    (found : index.contentMatchesProximity id proximity = true) :
    ∃ term ∈ proximity.terms, index.Centred id proximity term := by
  rcases (contentMatchesProximity_iff ordered).mp found with
    ⟨-, anchorIndex, term, there, -, centred⟩
  exact ⟨term, mem_of_getElem? there, centred⟩

/-- Of two terms, each is near to the other one. -/
theorem Centred.pair (ordered : index.Ordered id proximity.terms)
    (few : proximity.terms.length ≤ 2) (member : term ∈ proximity.terms)
    (centred : index.Centred id proximity term) :
    ∀ other ∈ proximity.terms, index.Centred id proximity other := by
  intro other otherMember
  by_cases same : other = term
  · exact same ▸ centred
  rcases centred with ⟨anchors, found, place, isAnchor, near⟩
  rcases near other otherMember with ⟨positions, otherFound, otherPlace, listed, isNear⟩
  refine ⟨positions, otherFound, otherPlace, listed, fun third thirdMember => ?_⟩
  have oneOf : third = term ∨ third = other := by
    rcases terms : proximity.terms with _ | ⟨first, _ | ⟨second, _ | ⟨more, rest⟩⟩⟩
    · simp [terms] at member
    · simp only [terms, mem_singleton] at member otherMember
      exact absurd (otherMember.trans member.symm) same
    · simp only [terms, mem_cons, not_mem_nil, or_false] at *
      rcases member with rfl | rfl <;> rcases otherMember with rfl | rfl <;> tauto
    · rw [terms] at few
      simp at few
  rcases oneOf with rfl | rfl
  · have bound := (ordered _ member anchors found).2 place isAnchor
    exact ⟨anchors, found, place, isAnchor, isNear.symm bound⟩
  · have bound := (ordered _ otherMember positions otherFound).2 otherPlace listed
    exact ⟨positions, otherFound, otherPlace, listed, isNear_self bound⟩

/-- Positions that are the places of words are position lists, as long as the texts are short. -/
theorem ordered_run (unicode : Unicode) {operations : List IndexOp}
    (texts : ∀ operation ∈ operations, operation.bringsText = true)
    (fit : ∀ operation ∈ operations, operation.fits unicode = true) (terms : List Text) :
    (new.run unicode operations).Ordered id terms := by
  intro term _ positions found
  have short := latest_fits fit id
  rw [termPositions_eq short (stores_run unicode texts id term)] at found
  split at found
  · cases found
    exact ⟨places_pairwise, fun place member => (places_lt member).trans short⟩
  · cases found

end SearchIndex

section Written

variable {unicode : Unicode} {lead distance terms left right : Text}

theorem splitColon_append (plain : ':' ∉ distance) :
    splitColon (distance ++ ':' :: terms) = some (distance, terms) := by
  have field : (distance ++ ':' :: terms).takeWhile (fun char => char ≠ ':') = distance := by
    rw [takeWhile_append_of_pos fun char member => by
      simpa using fun same : char = ':' => plain (same ▸ member)]
    simp
  have rest : (distance ++ ':' :: terms).drop (distance.length + 1) = terms := by
    simp [drop_append]
  rw [splitColon]
  simp only [field, rest]
  rw [if_pos (by simp)]

/-- A proximity is read from its distance and from the terms in order. -/
theorem QueryProximity.parse_append (isLead : lead = "near:".toList ∨ lead = "proximity:".toList)
    (plain : ':' ∉ distance) :
    QueryProximity.parse unicode (lead ++ (distance ++ ':' :: terms)) =
      (parseU32 (unicode.trim distance)).bind fun distance =>
        let terms := sortDedup (unicode.tokenize (unicode.normalize terms))
        if distance = 0 ∨ 256 < distance then none
        else if 2 ≤ terms.length then some ⟨distance, terms⟩ else none := by
  have stripped : ((stripPrefix "near:".toList (lead ++ (distance ++ ':' :: terms))).orElse
      fun _ => stripPrefix "proximity:".toList (lead ++ (distance ++ ':' :: terms))) =
        some (distance ++ ':' :: terms) := by
    rcases isLead with rfl | rfl <;> rfl
  rw [QueryProximity.parse, stripped]
  simp only [Option.bind_eq_bind, Option.bind_some, splitColon_append plain]

/-- The proximity that a query writes does not depend on the order of its terms. -/
theorem QueryProximity.parse_eq_of_terms
    (isLead : lead = "near:".toList ∨ lead = "proximity:".toList) (plain : ':' ∉ distance)
    (same : ∀ term, term ∈ unicode.tokenize (unicode.normalize left) ↔
      term ∈ unicode.tokenize (unicode.normalize right)) :
    QueryProximity.parse unicode (lead ++ (distance ++ ':' :: left)) =
      QueryProximity.parse unicode (lead ++ (distance ++ ':' :: right)) := by
  rw [parse_append isLead plain, parse_append isLead plain, sortDedup_congr same]

end Written

namespace SearchIndex

/-- The order in which terms are written does not matter; and more places of the terms keep a
match if every term was centred, which two terms always are. -/
theorem proximity_stable (unicode : Unicode) :
    (∀ lead distance left right : Text, lead = "near:".toList ∨ lead = "proximity:".toList →
      ':' ∉ distance →
      (∀ term, term ∈ unicode.tokenize (unicode.normalize left) ↔
        term ∈ unicode.tokenize (unicode.normalize right)) →
      QueryProximity.parse unicode (lead ++ (distance ++ ':' :: left)) =
        QueryProximity.parse unicode (lead ++ (distance ++ ':' :: right))) ∧
    ∀ (index later : SearchIndex) (id : FileId) (proximity : QueryProximity),
      index.Ordered id proximity.terms → later.Ordered id proximity.terms →
      index.Grows later id proximity.terms →
      (proximity.terms.length ≤ 2 ∨ ∀ term ∈ proximity.terms, index.Centred id proximity term) →
      index.contentMatchesProximity id proximity = true →
      later.contentMatchesProximity id proximity = true := by
  refine ⟨fun lead distance left right isLead plain same =>
    QueryProximity.parse_eq_of_terms isLead plain same, ?_⟩
  intro index later id proximity ordered laterOrdered grows safe found
  rcases centred_of_matches ordered found with ⟨anchor, isAnchor, anchorCentred⟩
  have centred : ∀ term ∈ proximity.terms, index.Centred id proximity term :=
    safe.elim (fun few => anchorCentred.pair ordered few isAnchor) fun all => all
  exact matches_of_centred (ne_nil_of_mem isAnchor) laterOrdered fun term member =>
    (centred term member).grows member grows

theorem proximity_stable_pair :
    let written (text : String) := new.run Unicode.ascii
      [.insert (plainRecord 1), .insertContent ⟨⟨1⟩, 1⟩ text.toList]
    QueryProximity.parse Unicode.ascii "near:1:alpha,beta".toList =
        QueryProximity.parse Unicode.ascii "near:1:beta,alpha".toList ∧
      (written "alpha beta alpha alpha").contentMatchesProximity ⟨⟨1⟩, 1⟩
        ⟨1, ["alpha".toList, "beta".toList]⟩ = true := by
  have stable := proximity_stable Unicode.ascii
  refine ⟨stable.1 "near:".toList "1".toList "alpha,beta".toList "beta,alpha".toList (Or.inl rfl)
    (by decide) fun term => ?_, ?_⟩
  · have left : Unicode.ascii.tokenize (Unicode.ascii.normalize "alpha,beta".toList) =
        ["alpha".toList, "beta".toList] := by decide +kernel
    have right : Unicode.ascii.tokenize (Unicode.ascii.normalize "beta,alpha".toList) =
        ["beta".toList, "alpha".toList] := by decide +kernel
    simp only [left, right, mem_cons, not_mem_nil, or_false]
    exact Or.comm
  · refine stable.2 (new.run Unicode.ascii [.insert (plainRecord 1),
        .insertContent ⟨⟨1⟩, 1⟩ "alpha beta".toList]) _ ⟨⟨1⟩, 1⟩
      ⟨1, ["alpha".toList, "beta".toList]⟩
      (ordered_run Unicode.ascii (by decide +kernel) (by decide +kernel) _)
      (ordered_run Unicode.ascii (by decide +kernel) (by decide +kernel) _)
      (forall_mem_cons.mpr ⟨fun positions found => ⟨[0, 2, 3], by decide +kernel, ?_⟩,
        forall_mem_cons.mpr ⟨fun positions found => ⟨[1], by decide +kernel, ?_⟩,
          forall_mem_nil _⟩⟩)
      (Or.inl le_rfl) (by decide +kernel)
    · have same : positions = [0] := Option.some.inj (found.symm.trans (by decide +kernel))
      simp [same]
    · have same : positions = [1] := Option.some.inj (found.symm.trans (by decide +kernel))
      simp [same]

/-- One more `alpha` makes `beta` the anchor, and `gamma` is not next to `beta`. -/
theorem proximity_lost :
    let written (text : String) := new.run Unicode.ascii
      [.insert (plainRecord 1), .insertContent ⟨⟨1⟩, 1⟩ text.toList]
    let proximity : QueryProximity := ⟨1, ["alpha".toList, "beta".toList, "gamma".toList]⟩
    QueryProximity.parse Unicode.ascii "near:1:alpha,beta,gamma".toList = some proximity ∧
      (written "gamma alpha beta").contentMatchesProximity ⟨⟨1⟩, 1⟩ proximity = true ∧
      (written "gamma alpha beta alpha").contentMatchesProximity ⟨⟨1⟩, 1⟩ proximity = false := by
  decide +kernel

end SearchIndex

end Gfm.Search
