import EdgeCompose.Proofs.Rendering
import EdgeCompose.Proofs.Tags

/-!
Pages that are one include. Any source, and any fragment with a name, can be asked for by a tag
(`ofTag_includeTag`); and a page that is such a tag comes to nothing but what the source comes to
(`compose_includeTag`). What is proved of all pages thus holds of all includes.
-/

namespace EdgeCompose

open Program

/-- A tag that asks for a source, or a fragment of it, to be kept for one second. -/
def includeTag (source : Text) (fragment : Option Text) : Markup.StartTag where
  name := "include".toList
  attributes :=
    .ofText "src".toList source (by decide) (List.all_eq_true.mp rfl) ::
      (fragment.toList.map (.ofText "fragment".toList · (by decide) (List.all_eq_true.mp rfl)) ++
        [.ofText "ttl".toList "1".toList (by decide) (List.all_eq_true.mp rfl)])
  name_ne_nil := by decide
  name_chars := List.all_eq_true.mp rfl

/-- The attributes of the tag by their names. -/
private theorem get?_includeTag (source : Text) (fragment : Option Text) (name : Text) :
    (Markup.attributes (includeTag source fragment).toText).get? name =
      if name = "ttl".toList then some "1".toList
      else if name = "fragment".toList ∧ fragment.isSome then fragment
      else if name = "src".toList then some source
      else none := by
  rw [Markup.StartTag.attributes_write]
  cases fragment with
  | none =>
    have hpairs : (includeTag source none).pairs =
        [("src".toList, (Markup.Attribute.ofText "src".toList source (by decide) (List.all_eq_true.mp rfl)).text),
          ("ttl".toList, "1".toList)] := rfl
    rw [Markup.Attribute.text_ofText] at hpairs
    rw [hpairs]
    simp only [Table.ofList, List.foldl_cons, List.foldl_nil, Table.get?_insert, Table.get?_empty,
      Option.isSome_none, Bool.false_eq_true, and_false, if_false]
  | some f =>
    have hpairs : (includeTag source (some f)).pairs =
        [("src".toList, (Markup.Attribute.ofText "src".toList source (by decide) (List.all_eq_true.mp rfl)).text),
          ("fragment".toList,
            (Markup.Attribute.ofText "fragment".toList f (by decide) (List.all_eq_true.mp rfl)).text),
          ("ttl".toList, "1".toList)] := rfl
    rw [Markup.Attribute.text_ofText, Markup.Attribute.text_ofText] at hpairs
    rw [hpairs]
    simp only [Table.ofList, List.foldl_cons, List.foldl_nil, Table.get?_insert, Table.get?_empty,
      Option.isSome_some, and_true]

theorem ofTag_includeTag (source : Text) {fragment : Option Text} (h : fragment ≠ some []) :
    Inclusion.ofTag (includeTag source fragment).toText =
      .ok { source, fragment, lifetime := some 1 } := by
  have hsource : (Markup.attributes (includeTag source fragment).toText).get? "src".toList =
      some source := by
    rw [get?_includeTag, if_neg (by decide), if_neg (fun hname => by cases hname.1), if_pos rfl]
  have hfragment : (Markup.attributes (includeTag source fragment).toText).get? "fragment".toList =
      fragment := by
    rw [get?_includeTag, if_neg (by decide)]
    cases fragment with
    | none => rfl
    | some f => rfl
  have hother (name : Text) (hname : name ∉ ["ttl".toList, "fragment".toList, "src".toList]) :
      (Markup.attributes (includeTag source fragment).toText).get? name = none := by
    simp only [List.mem_cons, List.not_mem_nil, or_false, not_or] at hname
    rw [get?_includeTag, if_neg hname.1, if_neg (fun heq => hname.2.1 heq.1), if_neg hname.2.2]
  have hlifetime : (Markup.attributes (includeTag source fragment).toText).get? "ttl".toList =
      some "1".toList := by
    rw [get?_includeTag, if_pos rfl]
  have hkept : fragment.filter (! ·.isEmpty) = fragment := by
    cases fragment with
    | none => rfl
    | some f =>
      cases f with
      | nil => exact (h rfl).elim
      | cons c f => rfl
  have halternate := hother "alt".toList (by decide)
  have honerror := hother "onerror".toList (by decide)
  unfold Inclusion.ofTag
  simp only [hsource, hfragment, hlifetime, hkept, halternate, honerror]
  rfl

theorem lookup?_includeTag (source : Text) (fragment : Option Text) :
    Markup.lookup? (includeTag source fragment).toText = some (.starts .inclusion) :=
  Markup.StartTag.lookup?_write _ rfl

theorem scan_includeTag (source : Text) (fragment : Option Text) :
    Markup.scan (includeTag source fragment).toText =
      [.tag (includeTag source fragment).toText] := by
  have hscan := (includeTag source fragment).scan_write []
  rwa [List.append_nil, Markup.scan_nil] at hscan

/-- The page that is the tag comes to the content of the tag's source. -/
theorem compose_includeTag (r : Renderer) (source : Text) {fragment : Option Text}
    (h : fragment ≠ some []) :
    r.page.compose r.levels none (includeTag source fragment).toText =
      r.page.content r.inner { source, fragment, lifetime := some 1 } source := by
  have hopened (v : Variables) (c : Composition) :
      c.opened v .inclusion (includeTag source fragment).toText =
        .ok (.inclusion { source, fragment, lifetime := some 1 }, c) := by
    unfold Composition.opened
    simp only [ofTag_includeTag source h]
    rfl
  have hforeign : (Composition.ofWanted none).isForeign = false := rfl
  have hself : Markup.isSelfClosing (includeTag source fragment).toText = true :=
    Markup.StartTag.isSelfClosing_write _
  rw [Renderer.compose_eq, ← bind_done (r.page.content r.inner _ source)]
  unfold Page.composeWith
  simp only [scan_includeTag, Page.takeAll, Page.take, Page.takeTag, hforeign, lookup?_includeTag,
    Composition.start, hopened, hself, Page.closeTop, Composition.pop?, Page.close, Page.included,
    bind_eq_bind, bind_bind, Bool.false_eq_true, if_false]
  refine congrArg (Program.bind _) (funext fun found => ?_)
  cases found with
  | error e => rfl
  | ok t => rfl

end EdgeCompose
