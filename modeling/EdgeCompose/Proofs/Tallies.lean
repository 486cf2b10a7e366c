import EdgeCompose.Proofs.Invariants
import EdgeCompose.Proofs.Logs
import Mathlib.Algebra.BigOperators.Group.Finset.Basic
import Mathlib.Algebra.BigOperators.Group.List.Lemmas
import Mathlib.Data.List.Dedup

/-!
Counting what happens in a run. The journal of a world, and the metrics that are made of it, say how
often something has happened in all; what each program was answered is in its log, and what was left
of it when it was given up goes the way of that log (`System.performs_left`). What is counted of the
world grows by what the logs of the programs have of it (`World.Tallies.run`).
-/

namespace EdgeCompose

open Program

/-! ## Metrics -/

namespace Sample

def ofMetric (name : String) (series : Text) : Bool := (name.toList ++ ['\x7b']).isPrefixOf series

/-- A name without a brace is told from another one by what is labelled with it. -/
theorem ofMetric_labelled {name name' : String} {labels : List (String × Text)}
    (h : '\x7b' ∉ name.toList) (h' : '\x7b' ∉ name'.toList) :
    ofMetric name (labelled name' labels) = true ↔ name = name' := by
  unfold ofMetric labelled
  rw [List.isPrefixOf_iff_prefix]
  constructor
  · rintro ⟨rest, heq⟩
    have hrun {l t : Text} (hl : '\x7b' ∉ l) :
        (l ++ ['\x7b'] ++ t).takeWhile (· != '\x7b') = l := by
      induction l with
      | nil => rfl
      | cons c l ih =>
        obtain ⟨hc, hl⟩ := not_or.mp (mt List.mem_cons.mpr hl)
        have hne : (c != '\x7b') = true := bne_iff_ne.mpr (Ne.symm hc)
        simp only [List.cons_append, List.takeWhile_cons, hne, if_true]
        rw [ih hl]
    have hlists := congrArg (List.takeWhile (· != '\x7b')) heq
    rw [hrun h, List.append_assoc, hrun h'] at hlists
    exact String.toList_inj.mp hlists
  · rintro rfl
    exact ⟨_, (List.append_assoc ..).symm⟩

/-- Series of different metrics are different. -/
theorem labelled_ne {name name' : String} {labels labels' : List (String × Text)}
    (h : '\x7b' ∉ name.toList) (h' : '\x7b' ∉ name'.toList) (hne : name ≠ name') :
    labelled name labels ≠ labelled name' labels' := by
  intro heq
  have hself : ofMetric name (labelled name labels) = true := (ofMetric_labelled h h).mpr rfl
  rw [heq] at hself
  exact hne ((ofMetric_labelled h h').mp hself)

end Sample

namespace Journal

def sum (j : Journal) (kind : Text → Bool) : Nat :=
  ((countSeries j.samples).filter fun entry => kind entry.1).foldr
    (fun entry total => entry.2 + total) 0

private theorem nodup_eraseDups : (l : List Text) → l.eraseDups.Nodup
  | [] => List.nodup_nil
  | a :: rest => by
    rw [List.eraseDups_cons, List.nodup_cons]
    refine ⟨fun hmem => ?_, nodup_eraseDups _⟩
    simp at hmem
termination_by l => l.length
decreasing_by exact Nat.lt_succ_of_le (List.length_filter_le _ _)

private theorem sum_counts (kind : Text → Bool) (l : List Text) :
    ((l.eraseDups.map fun name => (name, l.count name)).filter fun entry => kind entry.1).foldr
      (fun entry total => entry.2 + total) 0 = l.countP kind := by
  have hperm : l.eraseDups.Perm l.dedup :=
    (List.perm_ext_iff_of_nodup (nodup_eraseDups l) l.nodup_dedup).mpr fun a => by simp
  have hsame : @List.count Text instBEqOfDecidableEq = @List.count Text _ := by
    funext name l
    exact List.countP_congr fun a _ => by simp
  rw [List.filter_map, List.foldr_map, ← List.sum_map_count_dedup_filter_eq_countP, hsame,
    ← ((hperm.filter kind).map _).sum_eq, List.sum, List.foldr_map]
  rfl

/-- A sum of series is a number of samples, if each of these adds to one of the series. -/
theorem sum_eq_countP {kind : Text → Bool} {sampled : Sample → Bool}
    (h : ∀ s : Sample, s.series.countP kind = if sampled s then 1 else 0) (j : Journal) :
    j.sum kind = j.samples.countP sampled := by
  rw [sum, countSeries, sum_counts, List.countP_flatMap]
  induction j.samples with
  | nil => rfl
  | cons s samples ih => simp [List.countP_cons, h, ih, Nat.add_comm]

end Journal

/-! ## Answers -/

namespace Answered

/-- A fetch that no listener has skipped. -/
def passes : Answered → Bool
  | ⟨.announce .before _, e⟩ => !e.skip
  | _ => false

def sends : Answered → Bool
  | ⟨.send _, _⟩ => true
  | _ => false

def samples (kind : Sample → Bool) : Answered → Bool
  | ⟨.count s, _⟩ => kind s
  | _ => false

/-- An answer of a world that stores responses, or of one that does not. -/
def FromStore (cached : Bool) : Answered → Prop
  | ⟨.consult _, found⟩ => found.isSome = cached
  | _ => True

end Answered

namespace World

/-- A number that grows by one with the answers of a kind, and with nothing else. -/
structure Tallies (m : World → Nat) (f : Answered → Bool) : Prop where
  answered : ∀ {w w' : World} {who : Nat} {c : Command} {answer : c.Answer},
    Replied w who c (.answer answer) w' → m w' = m w + if f ⟨c, answer⟩ then 1 else 0
  waited : ∀ {w w' : World} {who : Nat} {c : Command}, Replied w who c .wait w' → m w' = m w
  overflowed : ∀ {w w' : World} {who : Nat} {c : Command}, Replied w who c .overflow w' → m w' = m w
  disturbed : ∀ {w w' : World}, w.Disturbed w' → m w' = m w

theorem tallies_sent : Tallies (·.journal.sent.length) Answered.sends where
  answered h := by
    cases h with
    | sent => exact List.length_append
    | _ => rfl
  waited h := by
    cases h
    rfl
  overflowed h := by cases h <;> rfl
  disturbed h := by cases h <;> rfl

theorem tallies_samples (kind : Sample → Bool) :
    Tallies (·.journal.samples.countP kind) (Answered.samples kind) where
  answered h := by
    cases h with
    | counted => exact List.countP_append.trans (congrArg _ List.countP_singleton)
    | _ => rfl
  waited h := by
    cases h
    rfl
  overflowed h := by cases h <;> rfl
  disturbed h := by cases h <;> rfl

end World

namespace System

variable {α : Type} {s : System α}

/-! ## Logs of all programs -/

theorem length_step (s : System α) (act : Act) :
    (s.step act).programs.length = s.programs.length := by
  have hstepped := stepped s act
  generalize s.step act = s' at hstepped
  cases hstepped with
  | answered => exact List.length_set
  | overflowed => exact List.length_set
  | gaveUp => exact List.length_set
  | _ => rfl

theorem length_run (s : System α) (acts : List Act) :
    (s.run acts).programs.length = s.programs.length := by
  induction acts generalizing s with
  | nil => rfl
  | cons act acts ih => rw [run_cons, ih, length_step]

theorem nextAnswered_eq_nil {who : Nat} (h : s.programs.length ≤ who) : s.nextAnswered who = [] := by
  have hnone : s.rest? who = none := by
    unfold rest?
    rw [List.getElem?_eq_none h]
    rfl
  unfold nextAnswered
  rw [hnone]

theorem nextAnswered_of_still {who : Nat} (h : ∀ c next, s.rest? who ≠ some (.ask c next)) :
    s.nextAnswered who = [] := by
  unfold nextAnswered
  split
  · next hrest => exact (h _ _ hrest).elim
  · rfl

def total (s : System α) (acts : List Act) (f : Answered → Bool) : Nat :=
  ∑ who ∈ Finset.range s.programs.length, (s.log who acts).countP f

/-- Of all logs a step adds to that of the program that advances. -/
theorem sum_answered (s : System α) (act : Act) (f : Answered → Bool) :
    ∑ who ∈ Finset.range s.programs.length, (s.answered who act).countP f =
      match act with
      | .advance who => (s.nextAnswered who).countP f
      | _ => 0 := by
  have hother {who : Nat} (h : act ≠ .advance who) : s.answered who act = [] := if_neg h
  cases act with
  | advance who =>
    have hne {other : Nat} (h : other ≠ who) : Act.advance who ≠ .advance other := by
      rintro ⟨⟩
      exact h rfl
    rcases Nat.lt_or_ge who s.programs.length with hlt | hge
    · rw [Finset.sum_eq_single_of_mem who (Finset.mem_range.mpr hlt) fun other _ h => by
        rw [hother (hne h)]
        rfl]
      simp [answered]
    · simp only [nextAnswered_eq_nil hge]
      refine Finset.sum_eq_zero fun other hmem => ?_
      have hlt := Finset.mem_range.mp hmem
      rw [hother (hne (by omega))]
      rfl
  | _ =>
    refine Finset.sum_eq_zero fun other _ => ?_
    rw [hother nofun]
    rfl

open World in
theorem Tallies.step {m : World → Nat} {f : Answered → Bool} (h : World.Tallies m f) (s : System α)
    (act : Act) : m (s.step act).world =
      m s.world + ∑ who ∈ Finset.range s.programs.length, (s.answered who act).countP f := by
  rw [sum_answered]
  have hstepped := stepped s act
  generalize s.step act = s' at hstepped
  cases hstepped with
  | still hdone =>
    simp only [nextAnswered_of_still hdone]
    rfl
  | answered hrest hreply =>
    simp only [nextAnswered_of_reply hrest hreply, List.countP_singleton]
    exact h.answered (Replied.of_reply hreply)
  | waited hrest hreply =>
    simp only [nextAnswered, hrest, hreply]
    exact h.waited (Replied.of_reply hreply)
  | overflowed hrest hreply =>
    simp only [nextAnswered, hrest, hreply]
    exact (h.disturbed (.dismissed _)).trans (h.overflowed (Replied.of_reply hreply))
  | gaveUp => exact h.disturbed (.dismissed _)
  | passed => exact h.disturbed (.passed _)
  | invalidated => exact h.disturbed (.invalidated _)

/-- What is counted of the world is what the logs have of it. -/
theorem Tallies.run {m : World → Nat} {f : Answered → Bool} (h : World.Tallies m f) (s : System α)
    (acts : List Act) : m (s.run acts).world = m s.world + s.total acts f := by
  unfold total
  induction acts generalizing s with
  | nil => simp [log]
  | cons act acts ih =>
    simp only [run_cons, ih, length_step, Tallies.step h, log, List.countP_append,
      Finset.sum_add_distrib, Nat.add_assoc]

/-! ## What is left of programs -/

/-- What is left of a program, or was left when it was given up. -/
def left? (s : System α) (who : Nat) : List Act → Option (Program α)
  | [] => s.rest? who
  | act :: acts =>
    match (s.step act).rest? who with
    | none => s.rest? who
    | some _ => (s.step act).left? who acts

/-- A program that is gone stays so. -/
theorem rest?_step_of_gone {who : Nat} (h : s.rest? who = none) (act : Act) :
    (s.step act).rest? who = none := by
  cases hrest : (s.step act).rest? who with
  | none => rfl
  | some rest =>
    obtain ⟨earlier, hearlier, -⟩ := rest?_step hrest
    cases h.symm.trans hearlier

theorem left?_of_gone {who : Nat} (h : s.rest? who = none) (acts : List Act) :
    s.left? who acts = none := by
  cases acts with
  | nil => exact h
  | cons act acts =>
    unfold left?
    rw [rest?_step_of_gone h]
    exact h

/-- A program that is gone is not answered any more. -/
theorem log_of_gone {who : Nat} (h : s.rest? who = none) (acts : List Act) : s.log who acts = [] := by
  induction acts generalizing s with
  | nil => rfl
  | cons act acts ih =>
    have hnone : s.answered who act = [] := by
      unfold answered nextAnswered
      rw [h]
      split <;> rfl
    rw [log, hnone, ih (rest?_step_of_gone h act)]
    rfl

/-- A step that gives a program up does not answer it. -/
theorem answered_of_gone {who : Nat} {act : Act} (h : (s.step act).rest? who = none) :
    s.answered who act = [] := by
  unfold answered
  split
  · next hact =>
    subst hact
    have hstepped := stepped s (.advance who)
    generalize s.step (.advance who) = s' at hstepped h
    cases hstepped with
    | still hdone => exact nextAnswered_of_still hdone
    | answered hrest hreply =>
      rw [rest?_put_self hrest] at h
      cases h
    | waited hrest hreply => simp only [nextAnswered, hrest, hreply]
    | overflowed hrest hreply => simp only [nextAnswered, hrest, hreply]
  · rfl

/-- What is left of a program goes the way of its log. -/
theorem performs_left {who : Nat} {p : Program α} (h : s.rest? who = some p) (acts : List Act) :
    ∃ rest, s.left? who acts = some rest ∧ Performs p (s.log who acts) rest := by
  induction acts generalizing s p with
  | nil => exact ⟨p, h, .nil p⟩
  | cons act acts ih =>
    unfold left? log
    cases hrest : (s.step act).rest? who with
    | none =>
      rw [answered_of_gone hrest, log_of_gone hrest]
      exact ⟨p, h, .nil p⟩
    | some q =>
      obtain ⟨rest, hleft, hperforms⟩ := ih hrest
      obtain ⟨earlier, hearlier, hstep⟩ := performs_answered hrest
      cases h.symm.trans hearlier
      exact ⟨rest, hleft, hstep.append hperforms⟩

/-- What is left in the end was left. -/
theorem left?_of_rest? {acts : List Act} {who : Nat} {rest : Program α}
    (h : (s.run acts).rest? who = some rest) : s.left? who acts = some rest := by
  induction acts generalizing s with
  | nil => exact h
  | cons act acts ih =>
    unfold left?
    split
    · next hnone =>
      obtain ⟨earlier, hearlier, -⟩ := performs_log (s := s.step act) h
      cases hnone.symm.trans hearlier
    · exact ih h

/-! ## Stores -/

/-- A world does not begin or cease to store responses. -/
theorem stores_step (s : System α) (act : Act) :
    (s.step act).world.responses.isSome = s.world.responses.isSome := by
  have hreplied {who : Nat} {c : Command} {r : Reply c.Answer} {w : World}
      (h : World.Replied s.world who c r w) :
      w.responses.isSome = s.world.responses.isSome := by
    cases h with
    | consulted hs _ => simp [hs]
    | offered hs _ => simp [hs]
    | offerTooLong hs _ => simp [hs]
    | _ => rfl
  have hstepped := stepped s act
  generalize s.step act = s' at hstepped
  cases hstepped with
  | answered _ hreply => exact hreplied (.of_reply hreply)
  | waited _ hreply => exact hreplied (.of_reply hreply)
  | overflowed _ hreply =>
    have h := hreplied (.of_reply hreply)
    exact h
  | _ => rfl

/-- What a program is answered tells whether its world stores responses. -/
theorem answered_fromStore {who : Nat} {act : Act} {a : Answered} (h : a ∈ s.answered who act) :
    a.FromStore s.world.responses.isSome := by
  have hstored {c : Command} {answer : c.Answer} {w : World}
      (h : s.world.reply who c = (.answer answer, w)) :
      (⟨c, answer⟩ : Answered).FromStore s.world.responses.isSome := by
    cases World.Replied.of_reply h with
    | unstored hs => simp [Answered.FromStore, hs]
    | consulted hs _ => simp [Answered.FromStore, hs]
    | _ => trivial
  unfold answered nextAnswered at h
  split at h
  · split at h
    · next c next hrest =>
      split at h
      · next answer hreply =>
        rw [List.mem_singleton] at h
        subst h
        exact hstored (Prod.ext hreply rfl)
      · cases h
    · cases h
  · cases h

theorem log_fromStore {who : Nat} (s : System α) (acts : List Act) :
    ∀ a ∈ s.log who acts, a.FromStore s.world.responses.isSome := by
  induction acts generalizing s with
  | nil => exact fun a ha => (List.not_mem_nil ha).elim
  | cons act acts ih =>
    intro a ha
    rcases List.mem_append.mp ha with ha | ha
    · exact answered_fromStore ha
    · rw [← stores_step s act]
      exact ih _ a ha

end System

end EdgeCompose
