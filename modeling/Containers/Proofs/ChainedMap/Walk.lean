import Containers.Proofs.ChainedMap.Keys
import Containers.Proofs.ChainedMap.Refinement

/-!
# A walk comes to every entry

A call on a walk skips empty chains until it comes to a chain with an entry, or to the end
(`Walk.advance_cases`). Hence it answers with the first of the entries still to come and leaves the
others (`Walk.advance_remaining`), and a number of calls takes as many entries
(`Walk.remaining_after`). None of this depends on the map: any walk comes to the end of its own
chains. That these are the chains of the directory is kept by every call (`Walk.Inside.after`), and
that there are as many entries as the map counts is part of the map's invariant.
-/

namespace Containers.ChainedMap

namespace Walk

variable {V : Type} {it rest : Walk V} {answer : Option (Entry V)} {chains : List (Chain V)}

/-! ## One call -/

/-- A call ends with the turn that leaves its loop. -/
theorem advance_of_leave (h : it.turn = .leave answer rest) : it.advance = (answer, rest) := by
  rw [advance]
  split
  next hturn =>
    cases h.symm.trans hturn
    rfl
  next hturn => cases h.symm.trans hturn

/-- A call goes on after a turn that has started a chain. -/
theorem advance_of_again {started : Walk V} (h : it.turn = .again started) :
    it.advance = started.advance := by
  rw [advance]
  split
  next hturn => cases h.symm.trans hturn
  next hturn =>
    cases h.symm.trans hturn
    rfl

@[simp] theorem advance_cons (entry : Entry V) (chain : Chain V) (unstarted : List (Chain V)) :
    advance ⟨entry :: chain, unstarted⟩ = (some entry, ⟨chain, unstarted⟩) :=
  advance_of_leave rfl

@[simp] theorem advance_start (chain : Chain V) (unstarted : List (Chain V)) :
    advance ⟨[], chain :: unstarted⟩ = advance ⟨chain, unstarted⟩ :=
  advance_of_again rfl

@[simp] theorem advance_end : advance (⟨[], []⟩ : Walk V) = (none, ⟨[], []⟩) :=
  advance_of_leave rfl

/-- Induction along the loop of a call: it finds an entry, starts another chain, or is at the
end. -/
@[elab_as_elim]
theorem advance_induction {motive : Walk V → Prop}
    (found : ∀ entry chain unstarted, motive ⟨entry :: chain, unstarted⟩)
    (start : ∀ chain unstarted, motive ⟨chain, unstarted⟩ → motive ⟨[], chain :: unstarted⟩)
    (finish : motive ⟨[], []⟩) (it : Walk V) : motive it := by
  obtain ⟨chain, unstarted⟩ := it
  induction unstarted generalizing chain with
  | nil =>
    cases chain with
    | nil => exact finish
    | cons entry chain => exact found entry chain []
  | cons next unstarted ih =>
    cases chain with
    | nil => exact start next unstarted (ih next)
    | cons entry chain => exact found entry chain (next :: unstarted)

/-- The loop of a call on this walk starts so many chains, and then the call ends with this answer
and leaves this walk behind. -/
inductive EndsAfter : Walk V → Nat → Option (Entry V) → Walk V → Prop
  | leave {it rest : Walk V} {answer : Option (Entry V)} (h : it.turn = .leave answer rest) :
      EndsAfter it 0 answer rest
  | again {it started rest : Walk V} {skipped : Nat} {answer : Option (Entry V)}
      (h : it.turn = .again started) (hstarted : EndsAfter started skipped answer rest) :
      EndsAfter it (skipped + 1) answer rest

/-- So many of the walk's chains are empty in front of the first entry, and a call takes this entry.
If all of them are empty, a call goes past them to the end. -/
def Skips (it : Walk V) (skipped : Nat) : Prop :=
  (∃ entry chain unstarted,
      it.chain :: it.unstarted = List.replicate skipped [] ++ (entry :: chain) :: unstarted ∧
      it.advance = (some entry, ⟨chain, unstarted⟩)) ∨
    it.chain :: it.unstarted = List.replicate (skipped + 1) [] ∧ it.advance = (none, ⟨[], []⟩)

/-- The loop of a call ends, and it has then started a chain for every empty one in front. -/
theorem advance_cases (it : Walk V) :
    ∃ skipped, it.Skips skipped ∧ it.EndsAfter skipped it.advance.1 it.advance.2 := by
  induction it using advance_induction with
  | found entry chain unstarted =>
    rw [advance_cons]
    exact ⟨0, .inl ⟨entry, chain, unstarted, rfl, advance_cons ..⟩, .leave rfl⟩
  | start chain unstarted ih =>
    obtain ⟨skipped, hskips, hends⟩ := ih
    rw [← advance_start] at hends
    refine ⟨skipped + 1, ?_, .again rfl hends⟩
    rcases hskips with ⟨entry, rest, behind, hchains, hadvance⟩ | ⟨hchains, hadvance⟩
    · exact .inl ⟨entry, rest, behind, congrArg ([] :: ·) hchains,
        (advance_start ..).trans hadvance⟩
    · exact .inr ⟨congrArg ([] :: ·) hchains, (advance_start ..).trans hadvance⟩
  | finish =>
    rw [advance_end]
    exact ⟨0, .inr ⟨rfl, advance_end⟩, .leave rfl⟩

/-- A call answers with the first of the entries still to come and leaves the others. -/
theorem advance_remaining (it : Walk V) :
    it.advance.1 = it.remaining.head? ∧ it.advance.2.remaining = it.remaining.tail := by
  have hflatten : it.remaining = (it.chain :: it.unstarted).flatten := rfl
  obtain ⟨skipped, ⟨entry, chain, unstarted, hchains, hadvance⟩ | ⟨hchains, hadvance⟩, -⟩ :=
    it.advance_cases
  · rw [hchains, List.flatten_append, List.flatten_replicate_nil, List.nil_append] at hflatten
    rw [hadvance, hflatten]
    exact ⟨rfl, rfl⟩
  · rw [hchains, List.flatten_replicate_nil] at hflatten
    rw [hadvance, hflatten]
    exact ⟨rfl, rfl⟩

/-- A call goes where a step goes, as long as there is one. -/
theorem next_eq_advance (it : Walk V) :
    it.next = it.advance.1.map fun entry => (entry, it.advance.2) := by
  induction it using advance_induction with
  | found entry chain unstarted => rw [advance_cons]; rfl
  | start chain unstarted ih =>
    rw [advance_start, ← ih]
    cases chain <;> rfl
  | finish => rw [advance_end]; rfl

/-! ## Many calls -/

/-- Each call takes one of the entries still to come, as long as there are any. -/
theorem remaining_after (it : Walk V) (calls : Nat) :
    (it.after calls).remaining = it.remaining.drop calls := by
  induction calls with
  | zero => rfl
  | succ calls ih => rw [after, (advance_remaining _).2, ih, List.tail_drop]

/-- Call after call answers with entry after entry, and when there is none left, with nothing. -/
theorem advance_after (it : Walk V) (calls : Nat) :
    (it.after calls).advance.1 = it.remaining[calls]? := by
  rw [(advance_remaining _).1, remaining_after, List.head?_drop]

/-- The walk has started some of these chains: its own is what is left of the last one it started,
and those it has not started are the others. -/
def Inside (it : Walk V) (chains : List (Chain V)) : Prop :=
  ∃ started, chains = started ++ it.unstarted ∧ it.chain <:+ started.getLast?.getD []

/-- A call stays inside the chains. -/
theorem Inside.advance (h : it.Inside chains) : it.advance.2.Inside chains := by
  induction it using advance_induction with
  | found entry chain unstarted =>
    obtain ⟨started, hchains, hsuffix⟩ := h
    rw [advance_cons]
    exact ⟨started, hchains, (List.suffix_cons entry chain).trans hsuffix⟩
  | start chain unstarted ih =>
    obtain ⟨started, rfl, -⟩ := h
    rw [advance_start]
    exact ih ⟨started ++ [chain], by simp, by simp⟩
  | finish =>
    rw [advance_end]
    exact h

/-- Any number of calls stays inside the chains. -/
theorem Inside.after (h : it.Inside chains) (calls : Nat) : (it.after calls).Inside chains := by
  induction calls with
  | zero => exact h
  | succ calls ih => exact ih.advance

end Walk

variable {κ V : Type}

/-- A new walk is inside the chains of the map: it has started none of them. -/
theorem inside_walk (m : ChainedMap κ V) : m.walk.Inside m.directory.toList :=
  ⟨[], rfl, List.suffix_refl _⟩

variable [MapKey κ]

/-- A walk through a map comes to every entry, once. After any number of calls it is in a chain of
the directory, and the entries still to come are the rest of that chain and then the chains it has
not started: the entries of the map without the first ones, one for each call. The next call answers
with the first of them and leaves the others. Its loop skips the empty chains in front, however many
there are, and ends. The answer is nothing exactly if no entry is left, and then it is nothing in
all calls after it. So a walk through a map that a run of operations has reached answers with an
entry as many times as the map counts entries. -/
theorem walk_complete (m : ChainedMap κ V) (calls : Nat) :
    let it := m.walk.after calls
    it.Inside m.directory.toList ∧
      it.toList = it.chain ++ it.unstarted.flatten ∧
      it.toList = m.entries.drop calls ∧
      (∀ more, (it.after more).advance.1 = it.toList[more]?) ∧
      it.advance.1 = it.toList.head? ∧
      it.advance.2.toList = it.toList.tail ∧
      it.next = it.advance.1.map (fun entry => (entry, it.advance.2)) ∧
      (∃ skipped, it.Skips skipped ∧ it.EndsAfter skipped it.advance.1 it.advance.2) ∧
      (it.advance.1 = none ↔ it.toList = []) ∧
      (it.advance.1 = none → ∀ more, (it.after more).advance.1 = none) ∧
      (m.Reachable → m.entries.length = m.len ∧ (it.advance.1.isSome ↔ calls < m.len)) := by
  intro it
  obtain ⟨hfirst, hothers⟩ := it.advance_remaining
  have hends : it.advance.1 = none ↔ it.remaining = [] := by rw [hfirst, List.head?_eq_none_iff]
  have hentries : m.entries = m.walk.remaining := m.walk.toList_eq_remaining
  simp only [hentries, Walk.toList_eq_remaining]
  refine ⟨m.inside_walk.after calls, rfl, m.walk.remaining_after calls, it.advance_after, hfirst,
    hothers, it.next_eq_advance, it.advance_cases, hends, fun hnone more => ?_,
    fun hreachable => ?_⟩
  · rw [it.advance_after, hends.1 hnone, List.getElem?_nil]
  · obtain ⟨hash, buckets, hintact⟩ := hreachable.intact
    have hlength : m.walk.remaining.length = m.len := hentries ▸ hintact.length_entries
    refine ⟨hlength, ?_⟩
    rw [m.walk.advance_after, ← hlength, isSome_getElem?]

/-- Three entries in two of six chains, with empty chains in front of them, between them and behind
them. -/
theorem walk_complete_gaps :
    ∃ m : ChainedMap (Scalar 1) UInt64, m.Reachable ∧
      m.directory = #[[], [⟨[7], 70⟩, ⟨[1], 10⟩], [], [], [⟨[4], 40⟩], []] ∧
      (∀ calls, (m.walk.after calls).advance.1 =
        ([⟨[7], 70⟩, ⟨[1], 10⟩, ⟨[4], 40⟩] : Chain UInt64)[calls]?) ∧
      (m.walk.after 2).EndsAfter 3 (some ⟨[4], 40⟩) ⟨[], [[]]⟩ ∧
      (∀ more, ((m.walk.after 3).after more).advance.1 = none) ∧
      m.entries.length = m.len ∧ m.len = 3 := by
  let fresh : ChainedMap (Scalar 1) UInt64 := ⟨.leading, #[[], [], [], [], [], []], by decide, 0⟩
  have hfresh : create .leading 6 (by decide) = .ok fresh := rfl
  let m := (fresh.run [.set 1 10, .set 4 40, .set 7 70]).1
  have hreachable : m.Reachable := ⟨.leading, 6, by decide, fresh, _, hfresh, rfl⟩
  have hdirectory : m.directory = #[[], [⟨[7], 70⟩, ⟨[1], 10⟩], [], [], [⟨[4], 40⟩], []] := by
    decide
  have hlist : m.walk.toList = [⟨[7], 70⟩, ⟨[1], 10⟩, ⟨[4], 40⟩] := by
    rw [Walk.toList_eq_remaining, Walk.remaining, walk, hdirectory]
    rfl
  have hskipping : m.walk.after 2 = ⟨[], [[], [], [⟨[4], 40⟩], []]⟩ := by
    simp [Walk.after, walk, hdirectory]
  obtain ⟨-, -, -, hanswers, -⟩ := walk_complete m 0
  obtain ⟨-, -, -, -, -, -, -, -, -, hstays, hcount⟩ := walk_complete m 3
  refine ⟨m, hreachable, hdirectory, fun calls => ?_, ?_, hstays ?_, (hcount hreachable).1,
    by decide⟩
  · rw [← hlist]
    exact hanswers calls
  · rw [hskipping]
    exact .again rfl (.again rfl (.again rfl (.leave rfl)))
  · refine (hanswers 3).trans ?_
    rw [Walk.after, hlist]
    rfl

end Containers.ChainedMap
