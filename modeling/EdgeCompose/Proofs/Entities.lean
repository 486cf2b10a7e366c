import Mathlib.Data.List.Induction
import EdgeCompose.Markup.Tag

/-!
Entities in text. They are decoded kind after kind, each in a pass of its own over the whole text,
and that comes to one pass from the left (`decodeEntities_onePass`): no entity begins inside another
one, and nothing that a replacement writes is part of an entity that is replaced later. A character
may stand for itself or as one of its entities, only the ampersand always has to be written as one,
and decoding gives the characters back (`decodeEntities_code`).
-/

namespace EdgeCompose.Markup

open Text

/-- A character and how it is written: as it is, unless it is an ampersand, or as an entity. -/
structure Coded where
  char : Char
  code : Text
  proper : code = [char] ∧ char ≠ '&' ∨ (code, char) ∈ entities

theorem replaceFrom_skip (old new l t : Text) :
    replaceFrom old new l.length (l ++ t) = replaceFrom old new 0 t := by
  induction l with
  | nil => rfl
  | cons c l ih =>
    rw [List.length_cons, List.cons_append, replaceFrom]
    exact ih

theorem replaceFrom_pass {old new l t : Text} {c : Char} (h : old.head? = some c) (hl : c ∉ l) :
    replaceFrom old new 0 (l ++ t) = l ++ replaceFrom old new 0 t := by
  obtain ⟨rest, rfl⟩ := List.head?_eq_some_iff.mp h
  induction l with
  | nil => rfl
  | cons d l ih =>
    have hne : (c == d) = false := by
      rw [beq_eq_false_iff_ne]
      rintro rfl
      exact hl List.mem_cons_self
    simp only [List.cons_append, replaceFrom, dropLead?, hne]
    exact congrArg (d :: ·) (ih fun hmem => hl (List.mem_cons_of_mem _ hmem))

theorem replaceFrom_hit {old new t : Text} (h : old ≠ []) :
    replaceFrom old new 0 (old ++ t) = new ++ replaceFrom old new 0 t := by
  obtain ⟨c, rest, rfl⟩ := List.exists_cons_of_ne_nil h
  have hlead := dropLead?_append (c :: rest) t
  rw [List.cons_append] at hlead ⊢
  rw [replaceFrom, hlead]
  simp only [Option.isSome_some, if_true, List.length_cons, Nat.add_sub_cancel]
  rw [replaceFrom_skip]

theorem replaceFrom_miss {old new t : Text} {c : Char} (h : ¬ old <+: c :: t) :
    replaceFrom old new 0 (c :: t) = c :: replaceFrom old new 0 t := by
  have hlead : dropLead? old (c :: t) = none := by
    cases hlead : dropLead? old (c :: t) with
    | none => rfl
    | some rest => exact (h ⟨rest, (eq_append_of_dropLead? hlead).symm⟩).elim
  rw [replaceFrom, hlead]
  rfl

private theorem entities_lead : ∀ e ∈ entities, e.1.head? = some '&' ∧ '&' ∉ e.1.tail := by
  decide

private theorem entities_apart :
    ∀ e ∈ entities, ∀ e' ∈ entities, e.1 <+: e'.1 → e = e' := by
  decide

/-- No entity holds what one before it decodes to. -/
private theorem entities_free : entities.Pairwise fun e e' => e ≠ e' ∧ e.2 ∉ e'.1 := by
  decide

/-! ## Decoding in one pass -/

/-- Decoding some of the entities from the left, each where it begins, and going on behind it. -/
inductive Decodes (es : List (Text × Char)) : Text → Text → Prop
  | nil : Decodes es [] []
  | entity {e : Text × Char} {t u : Text} : e ∈ es → Decodes es t u → Decodes es (e.1 ++ t) (e.2 :: u)
  | plain {c : Char} {t u : Text} : (∀ e ∈ es, ¬ e.1 <+: c :: t) → Decodes es t u →
    Decodes es (c :: t) (c :: u)

namespace Decodes

variable {es : List (Text × Char)} {e : Text × Char} {t u : Text}

/-- Every entity begins with an ampersand. -/
theorem plain_of_ne (hes : es ⊆ entities) {c : Char} (hc : c ≠ '&') (h : Decodes es t u) :
    Decodes es (c :: t) (c :: u) := by
  refine .plain (fun e he hlead => ?_) h
  obtain ⟨rest, hcode⟩ := List.head?_eq_some_iff.mp (entities_lead e (hes he)).1
  rw [hcode, List.cons_prefix_cons] at hlead
  exact hc hlead.1.symm

theorem plain_run (hes : es ⊆ entities) {l : Text} (hl : '&' ∉ l) (h : Decodes es t u) :
    Decodes es (l ++ t) (l ++ u) := by
  induction l with
  | nil => exact h
  | cons c l ih =>
    obtain ⟨hc, hl⟩ := not_or.mp (mt List.mem_cons.mpr hl)
    exact plain_of_ne hes (Ne.symm hc) (ih hl)

/-- Entities that are left for later stay as they are. -/
theorem later (hes : es ⊆ entities) (he : e ∈ entities) (hnew : e ∉ es) (h : Decodes es t u) :
    Decodes es (e.1 ++ t) (e.1 ++ u) := by
  obtain ⟨hfirst, htail⟩ := entities_lead e he
  obtain ⟨tail, hcode⟩ := List.head?_eq_some_iff.mp hfirst
  rw [hcode, List.tail_cons] at htail
  have hapart : ∀ e' ∈ es, ¬ e'.1 <+: e.1 ++ t := by
    intro e' he' hlead
    rcases List.prefix_or_prefix_of_prefix hlead (List.prefix_append e.1 t) with hlt | hlt
    · exact hnew (entities_apart e' (hes he') e he hlt ▸ he')
    · exact hnew (entities_apart e he e' (hes he') hlt ▸ he')
  rw [hcode, List.cons_append] at hapart ⊢
  exact .plain hapart (plain_run hes htail h)

/-- What stands at the front after decoding stood there before, unless an entity gave some of it. -/
theorem prefix_of_prefix (h : Decodes es t u) {l : Text} (hfree : ∀ e ∈ es, e.2 ∉ l) (hl : l <+: u) :
    l <+: t := by
  induction h generalizing l with
  | nil => exact hl
  | entity he _ _ =>
    cases l with
    | nil => exact List.nil_prefix
    | cons d l =>
      rw [List.cons_prefix_cons] at hl
      exact absurd (hl.1 ▸ List.mem_cons_self) (hfree _ he)
  | plain _ _ ih =>
    cases l with
    | nil => exact List.nil_prefix
    | cons d l =>
      rw [List.cons_prefix_cons] at hl ⊢
      exact ⟨hl.1, ih (fun e he hmem => hfree e he (List.mem_cons_of_mem _ hmem)) hl.2⟩

/-- Decoding one entity more is decoding without it and then replacing it everywhere. -/
theorem split (hes : es ⊆ entities) (he : e ∈ entities) (hnew : ∀ e' ∈ es, e' ≠ e ∧ e'.2 ∉ e.1)
    {w : Text} (h : Decodes (es ++ [e]) t w) : ∃ u, Decodes es t u ∧ replaceAll e.1 [e.2] u = w := by
  obtain ⟨hfirst, -⟩ := entities_lead e he
  have hmem : e ∉ es := fun hmem => (hnew e hmem).1 rfl
  unfold replaceAll
  induction h with
  | nil => exact ⟨[], .nil, rfl⟩
  | @entity e' t w he' _ ih =>
    obtain ⟨u, hu, rfl⟩ := ih
    rcases List.mem_append.mp he' with he' | he'
    · have hamp : '&' ∉ [e'.2] := by
        rw [List.mem_singleton]
        intro hamp
        exact (hnew e' he').2 (hamp ▸ List.mem_of_head? hfirst)
      exact ⟨e'.2 :: u, .entity he' hu, replaceFrom_pass hfirst hamp⟩
    · cases List.mem_singleton.mp he'
      refine ⟨e.1 ++ u, later hes he hmem hu, replaceFrom_hit ?_⟩
      intro hnil
      rw [hnil] at hfirst
      cases hfirst
  | @plain c t w hplain _ ih =>
    obtain ⟨u, hu, rfl⟩ := ih
    refine ⟨c :: u, .plain (fun e' he' => hplain e' (List.mem_append_left _ he')) hu, ?_⟩
    -- If the entity stood here after the earlier passes, it would have stood here before them.
    refine replaceFrom_miss fun hlead => hplain e (List.mem_append_right _ (List.mem_singleton_self e)) ?_
    obtain ⟨tail, hcode⟩ := List.head?_eq_some_iff.mp hfirst
    rw [hcode, List.cons_prefix_cons] at hlead ⊢
    refine ⟨hlead.1, hu.prefix_of_prefix (fun e' he' hmem => (hnew e' he').2 ?_) hlead.2⟩
    rw [hcode]
    exact List.mem_cons_of_mem _ hmem

theorem of_nil {w : Text} (h : Decodes [] t w) : w = t := by
  induction h with
  | nil => rfl
  | entity he => cases he
  | plain _ _ ih => rw [ih]

/-- One pass for all of the entities does what one pass for each of them does. -/
theorem foldl_eq {w : Text} (hes : es ⊆ entities) (hfree : es.Pairwise fun e e' => e ≠ e' ∧ e.2 ∉ e'.1)
    (h : Decodes es t w) : es.foldl (fun t e => replaceAll e.1 [e.2] t) t = w := by
  induction es using List.reverseRecOn generalizing w with
  | nil => exact (of_nil h).symm
  | append_singleton es e ih =>
    obtain ⟨hes, he⟩ := List.append_subset.mp hes
    obtain ⟨hfree, -, hnew⟩ := List.pairwise_append.mp hfree
    obtain ⟨u, hu, rfl⟩ := h.split hes (he (List.mem_singleton_self e)) fun e' he' =>
      hnew e' he' e (List.mem_singleton_self e)
    rw [List.foldl_append, ih hes hfree hu]
    rfl

theorem decodeEntities_eq {w : Text} (h : Decodes entities t w) : decodeEntities t = w :=
  h.foldl_eq (List.Subset.refl _) entities_free

end Decodes

/-- Characters are read as they were written. -/
theorem decodeEntities_code (cs : List Coded) :
    decodeEntities (cs.flatMap Coded.code) = cs.map Coded.char := by
  refine Decodes.decodeEntities_eq ?_
  induction cs with
  | nil => exact .nil
  | cons c cs ih =>
    rw [List.flatMap_cons, List.map_cons]
    rcases c.proper with ⟨hcode, hne⟩ | hentity
    · rw [hcode]
      exact .plain_of_ne (List.Subset.refl _) hne ih
    · exact .entity hentity ih

def decodeOnce : Text → Text
  | '&' :: 'l' :: 't' :: ';' :: t => '<' :: decodeOnce t
  | '&' :: 'g' :: 't' :: ';' :: t => '>' :: decodeOnce t
  | '&' :: 'q' :: 'u' :: 'o' :: 't' :: ';' :: t => '"' :: decodeOnce t
  | '&' :: 'a' :: 'p' :: 'o' :: 's' :: ';' :: t => '\'' :: decodeOnce t
  | '&' :: '#' :: '3' :: '9' :: ';' :: t => '\'' :: decodeOnce t
  | '&' :: 'a' :: 'm' :: 'p' :: ';' :: t => '&' :: decodeOnce t
  | c :: t => c :: decodeOnce t
  | [] => []

theorem decodes_decodeOnce (t : Text) : Decodes entities t (decodeOnce t) := by
  fun_induction decodeOnce t with
  | case1 t ih => exact .entity (e := ("&lt;".toList, '<')) (by decide) ih
  | case2 t ih => exact .entity (e := ("&gt;".toList, '>')) (by decide) ih
  | case3 t ih => exact .entity (e := ("&quot;".toList, '"')) (by decide) ih
  | case4 t ih => exact .entity (e := ("&apos;".toList, '\'')) (by decide) ih
  | case5 t ih => exact .entity (e := ("&#39;".toList, '\'')) (by decide) ih
  | case6 t ih => exact .entity (e := ("&amp;".toList, '&')) (by decide) ih
  | case7 c t hlt hgt hquot hapos hcode hamp ih =>
    refine .plain ?_ ih
    rintro e he ⟨rest, hrest⟩
    simp only [entities, List.mem_cons, List.not_mem_nil, or_false] at he
    rcases he with rfl | rfl | rfl | rfl | rfl | rfl
    · exact hlt rest (List.cons.inj hrest).1.symm (List.cons.inj hrest).2.symm
    · exact hgt rest (List.cons.inj hrest).1.symm (List.cons.inj hrest).2.symm
    · exact hquot rest (List.cons.inj hrest).1.symm (List.cons.inj hrest).2.symm
    · exact hapos rest (List.cons.inj hrest).1.symm (List.cons.inj hrest).2.symm
    · exact hcode rest (List.cons.inj hrest).1.symm (List.cons.inj hrest).2.symm
    · exact hamp rest (List.cons.inj hrest).1.symm (List.cons.inj hrest).2.symm
  | case8 => exact .nil

/-- Entities are decoded as in one pass from the left, so that nothing a replacement gives is decoded
again. Whatever way a text is written in, with all of its ampersands as entities and with any of the
other characters that have one as one of theirs, it is decoded to itself. -/
theorem decodeEntities_onePass :
    (∀ t, decodeEntities t = decodeOnce t) ∧
    ∀ cs : List Coded, decodeEntities (cs.flatMap Coded.code) = cs.map Coded.char :=
  ⟨fun t => (decodes_decodeOnce t).decodeEntities_eq, decodeEntities_code⟩

example : decodeEntities "&amp;lt; &&amp;#39;".toList = "&lt; &&#39;".toList := by
  decide

/-- A character in quotes of one kind: only what would be misread there is written as an entity. -/
def Coded.within {quote : Char} {entity : Text} (h : (entity, quote) ∈ entities) (c : Char) : Coded where
  char := c
  code := if c = '&' then "&amp;".toList else if c = quote then entity else [c]
  proper := by
    split
    · next hc =>
      subst hc
      exact .inr (by decide)
    · next hamp =>
      split
      · next hc =>
        subst hc
        exact .inr h
      · exact .inl ⟨rfl, hamp⟩

private theorem quote_free : ∀ e ∈ entities, ∀ e' ∈ entities, isQuote e.2 = true → e.2 ∉ e'.1 := by
  decide

theorem Coded.quote_not_mem_within {quote : Char} {entity : Text} (h : (entity, quote) ∈ entities)
    (hquote : isQuote quote = true) (c : Char) : quote ∉ (Coded.within h c).code := by
  unfold Coded.within
  simp only
  split
  · exact quote_free _ h ("&amp;".toList, '&') (by decide) hquote
  · split
    · exact quote_free _ h _ h hquote
    · next hc =>
      rw [List.mem_singleton]
      exact Ne.symm hc

@[simp] theorem map_char_within {quote : Char} {entity : Text} (h : (entity, quote) ∈ entities)
    (t : Text) : (t.map (Coded.within h)).map Coded.char = t := by
  rw [List.map_map]
  exact List.map_id t

/-- A character in double quotes: only what would be misread there is written as an entity. -/
def Coded.ofChar (c : Char) : Coded where
  char := c
  code := if c = '&' then "&amp;".toList else if c = '"' then "&quot;".toList else [c]
  proper := (@within '"' "&quot;".toList (by decide) c).proper

theorem Coded.quote_not_mem_ofChar (c : Char) : '"' ∉ (Coded.ofChar c).code :=
  @quote_not_mem_within '"' "&quot;".toList (by decide) rfl c

@[simp] theorem map_char_ofChar (t : Text) : (t.map Coded.ofChar).map Coded.char = t := by
  rw [List.map_map]
  exact List.map_id t

end EdgeCompose.Markup
