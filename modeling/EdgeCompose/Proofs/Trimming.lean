import Mathlib.Data.List.DropRight
import EdgeCompose.Proofs.Tags

/-!
Texts with blanks around them, and texts cut at a separator. Trimming gives the one text without
blanks at its ends that stands between blanks (`trim_eq_iff`), and a cut is made where the separator
stands first (`splitOnce?_eq_some_iff`).
-/

namespace EdgeCompose.Text

def IsBlank (t : Text) : Prop := ∀ c ∈ t, isBlank c = true

/-- There is no blank at either end. -/
structure Tight (t : Text) : Prop where
  first : ∀ c, t.head? = some c → isBlank c = false
  last : ∀ c, t.getLast? = some c → isBlank c = false

variable {s t before after : Text}

theorem IsBlank.not_mem {c : Char} (h : IsBlank t) (hc : isBlank c = false) : c ∉ t :=
  fun hmem => Bool.false_ne_true (hc.symm.trans (h c hmem))

theorem dropEndWhile_run {p : Char → Bool} (hafter : ∀ c ∈ after, p c = true)
    (ht : ∀ c, t.getLast? = some c → p c = false) : dropEndWhile p (t ++ after) = t := by
  have hrun := Markup.takeWhile_run (p := p) (l := after.reverse) (t := t.reverse)
    (fun c hc => hafter c (List.mem_reverse.mp hc))
    (fun c hc => ht c (by simpa using hc))
  rw [dropEndWhile, List.reverse_append, hrun.2, List.reverse_reverse]

theorem trim_around (hbefore : IsBlank before) (hafter : IsBlank after) (ht : Tight t) :
    trim (before ++ (t ++ after)) = t := by
  unfold trim trimEnd
  cases t with
  | nil =>
    have hall : ∀ c ∈ before ++ after, isBlank c = true := fun c hc =>
      (List.mem_append.mp hc).elim (hbefore c) (hafter c)
    rw [List.nil_append, List.dropWhile_eq_nil_iff.mpr hall]
    rfl
  | cons c t =>
    have hrun := Markup.takeWhile_run (t := c :: (t ++ after)) hbefore fun d hd => ht.first d hd
    rw [List.cons_append, hrun.2]
    exact dropEndWhile_run hafter ht.last

theorem last_trimEnd (s : Text) : ∀ c, (trimEnd s).getLast? = some c → isBlank c = false := by
  intro c hc
  have hne : trimEnd s ≠ [] := by
    intro hnil
    rw [hnil] at hc
    cases hc
  have hlast := List.rdropWhile_last_not isBlank s hne
  rw [List.getLast?_eq_some_getLast hne, Option.some.injEq] at hc
  rw [← hc]
  exact Bool.eq_false_iff.mpr hlast

theorem tight_trim (s : Text) : Tight (trim s) := by
  constructor
  · intro c hc
    obtain ⟨rest, hrest⟩ := List.head?_eq_some_iff.mp hc
    obtain ⟨more, hmore⟩ : trim s <+: s.dropWhile isBlank := List.rdropWhile_prefix isBlank _
    have hhead := List.head?_dropWhile_not isBlank s
    rw [← hmore, hrest] at hhead
    simpa using hhead
  · exact last_trimEnd (s.dropWhile isBlank)

theorem exists_around (s : Text) :
    ∃ before after, IsBlank before ∧ IsBlank after ∧ s = before ++ (trim s ++ after) := by
  refine ⟨s.takeWhile isBlank, (s.dropWhile isBlank).rtakeWhile isBlank, ?_, ?_, ?_⟩
  · exact fun c hc => List.mem_takeWhile_imp hc
  · exact fun c hc => List.mem_rtakeWhile_imp hc
  · have hends : trim s ++ (s.dropWhile isBlank).rtakeWhile isBlank = s.dropWhile isBlank :=
      List.rdropWhile_append_rtakeWhile
    rw [hends, List.takeWhile_append_dropWhile]

theorem trim_eq_iff : trim s = t ↔
    Tight t ∧ ∃ before after, IsBlank before ∧ IsBlank after ∧ s = before ++ (t ++ after) := by
  constructor
  · rintro rfl
    exact ⟨tight_trim s, exists_around s⟩
  · rintro ⟨ht, before, after, hbefore, hafter, rfl⟩
    exact trim_around hbefore hafter ht

theorem trim_dropWhile (s : Text) : trim (s.dropWhile isBlank) = trim s := by
  unfold trim
  rw [List.dropWhile_idempotent]

theorem trim_trimEnd (s : Text) : trim (trimEnd s) = trim s := by
  obtain ⟨before, after, hbefore, hafter, hs⟩ := exists_around (trimEnd s)
  refine (trim_eq_iff.mpr ⟨tight_trim _, before, after ++ s.rtakeWhile isBlank, hbefore, ?_, ?_⟩).symm
  · exact fun c hc => (List.mem_append.mp hc).elim (hafter c) (List.mem_rtakeWhile_imp)
  · have hends : trimEnd s ++ s.rtakeWhile isBlank = s := List.rdropWhile_append_rtakeWhile
    rw [← List.append_assoc, ← List.append_assoc, List.append_assoc before, ← hs, hends]

theorem trim_subset (s : Text) : trim s ⊆ s := by
  obtain ⟨before, after, -, -, hs⟩ := exists_around s
  intro c hc
  rw [hs]
  simp [hc]

variable {sep : Char} {rest : Text}

/-- Nothing is trimmed across a character that is not blank. -/
theorem trim_append_cons (hsep : isBlank sep = false) (before rest : Text) :
    trim (before ++ sep :: rest) = before.dropWhile isBlank ++ sep :: trimEnd rest := by
  have hfront : (before ++ sep :: rest).dropWhile isBlank =
      before.dropWhile isBlank ++ sep :: rest := by
    induction before with
    | nil => simp [hsep]
    | cons c before ih =>
      rw [List.cons_append, List.dropWhile_cons, List.dropWhile_cons, ih]
      split <;> rfl
  have hends : trimEnd rest ++ rest.rtakeWhile isBlank = rest := List.rdropWhile_append_rtakeWhile
  unfold trim
  rw [hfront]
  nth_rewrite 1 [← hends]
  rw [← List.cons_append, ← List.append_assoc]
  refine dropEndWhile_run (fun c hc => List.mem_rtakeWhile_imp hc) fun c hc => ?_
  rcases List.eq_nil_or_concat (trimEnd rest) with hnil | ⟨front, d, hrest⟩
  · rw [hnil, List.getLast?_concat, Option.some.injEq] at hc
    exact hc ▸ hsep
  · refine last_trimEnd rest c ?_
    rw [hrest, List.concat_eq_append, ← List.cons_append, ← List.append_assoc,
      List.getLast?_concat] at hc
    rw [hrest, List.concat_eq_append, List.getLast?_concat, hc]

theorem splitOnce?_eq_none_iff : splitOnce? sep t = none ↔ sep ∉ t := by
  induction t with
  | nil => simp [splitOnce?]
  | cons c t ih =>
    by_cases hc : c = sep
    · simp [splitOnce?, hc]
    · simp [splitOnce?, hc, Ne.symm hc, ih]

theorem splitOnce?_eq_some_iff :
    splitOnce? sep t = some (before, rest) ↔ t = before ++ sep :: rest ∧ sep ∉ before := by
  constructor
  · intro h
    refine ⟨eq_of_splitOnce? h, ?_⟩
    induction t generalizing before with
    | nil => cases h
    | cons c t ih =>
      by_cases hc : c = sep
      · simp only [splitOnce?, hc, beq_self_eq_true, if_true, Option.some.injEq, Prod.mk.injEq] at h
        simp [← h.1]
      · simp only [splitOnce?, beq_iff_eq, hc, if_false, Option.map_eq_some_iff, Prod.mk.injEq] at h
        obtain ⟨⟨front, rest'⟩, hfront, rfl, rfl⟩ := h
        simpa [Ne.symm hc] using ih hfront
  · rintro ⟨rfl, hfree⟩
    induction before with
    | nil => simp [splitOnce?]
    | cons c before ih =>
      obtain ⟨hc, hfree⟩ := not_or.mp (mt List.mem_cons.mpr hfree)
      simp [splitOnce?, Ne.symm hc, ih hfree]

/-- A text that is cut at a character is trimmed at its ends and not at the cut. -/
theorem splitOnce?_trim (hsep : isBlank sep = false) (h : splitOnce? sep t = some (before, rest)) :
    splitOnce? sep (trim t) = some (before.dropWhile isBlank, trimEnd rest) := by
  obtain ⟨rfl, hfree⟩ := splitOnce?_eq_some_iff.mp h
  rw [trim_append_cons hsep]
  refine splitOnce?_eq_some_iff.mpr ⟨rfl, fun hmem => hfree ?_⟩
  exact (List.dropWhile_sublist isBlank).subset hmem

end EdgeCompose.Text
