import EdgeCompose.Proofs.Tags

/-!
Start tags as authors write them: each attribute has blanks before it and around its equals sign, and
its value stands in quotes of either kind, with the ampersand and those quotes written as entities.
Such a tag is a written one in the sense of `Attribute` and `StartTag`, so all its readers agree on it
(`QuotedTag.reads_back`): the scanner, the readers of its name, its end and its attributes, and the
search for its directive.
-/

namespace EdgeCompose.Markup

open Text

/-- An attribute with any value: what its quotes are, how they are written inside of it, and the blanks
around. -/
structure QuotedAttribute where
  name : Text
  value : Text
  quote : Char := '"'
  entity : Text := "&quot;".toList
  before : Text := [' ']
  left : Text := []
  right : Text := []
  name_ne_nil : name ≠ []
  name_chars : ∀ c ∈ name, isAttributeChar c = true
  quote_mark : isQuote quote = true := by rfl
  entity_mem : (entity, quote) ∈ entities := by decide
  before_ne_nil : before ≠ [] := by decide
  before_blank : ∀ c ∈ before, isBlank c = true := by exact List.all_eq_true.mp rfl
  left_blank : ∀ c ∈ left, isBlank c = true := by exact List.all_eq_true.mp rfl
  right_blank : ∀ c ∈ right, isBlank c = true := by exact List.all_eq_true.mp rfl

namespace QuotedAttribute

def code (a : QuotedAttribute) : Text :=
  a.value.flatMap fun c => if c = '&' then "&amp;".toList else if c = a.quote then a.entity else [c]

def toText (a : QuotedAttribute) : Text :=
  a.before ++ (a.name ++ (a.left ++ '=' :: (a.right ++ a.quote :: (a.code ++ [a.quote]))))

def toAttribute (a : QuotedAttribute) : Attribute where
  name := a.name
  value := a.value.map (Coded.within a.entity_mem)
  quote := a.quote
  before := a.before
  left := a.left
  right := a.right
  name_ne_nil := a.name_ne_nil
  name_chars := a.name_chars
  quote_mark := a.quote_mark
  value_free := by
    intro coded hmem
    obtain ⟨c, -, rfl⟩ := List.mem_map.mp hmem
    exact Coded.quote_not_mem_within a.entity_mem a.quote_mark c
  before_ne_nil := a.before_ne_nil
  before_blank := a.before_blank
  left_blank := a.left_blank
  right_blank := a.right_blank

@[simp] theorem text_toAttribute (a : QuotedAttribute) : a.toAttribute.text = a.value :=
  map_char_within a.entity_mem a.value

@[simp] theorem toText_toAttribute (a : QuotedAttribute) : a.toAttribute.toText = a.toText := by
  have hcode : a.toAttribute.code = a.code := by
    unfold Attribute.code code toAttribute
    rw [List.flatMap_map]
    rfl
  unfold Attribute.toText
  rw [hcode]
  rfl

end QuotedAttribute

/-- A start tag with a name of any directive or of none; it may close itself. -/
structure QuotedTag where
  name : Text
  attributes : List QuotedAttribute := []
  closes : Bool := true
  name_ne_nil : name ≠ []
  name_chars : ∀ c ∈ name, isTagChar c = true

namespace QuotedTag

def toText (t : QuotedTag) : Text :=
  "<esi:".toList ++ t.name ++ t.attributes.flatMap QuotedAttribute.toText ++
    if t.closes then "/>".toList else ">".toList

def toStartTag (t : QuotedTag) : StartTag where
  name := t.name
  attributes := t.attributes.map QuotedAttribute.toAttribute
  closes := t.closes
  name_ne_nil := t.name_ne_nil
  name_chars := t.name_chars

def pairs (t : QuotedTag) : List (Text × Text) := t.attributes.map fun a => (a.name, a.value)

theorem toText_toStartTag (t : QuotedTag) : t.toStartTag.toText = t.toText := by
  have hattributes : t.toStartTag.attributeCode = t.attributes.flatMap QuotedAttribute.toText := by
    unfold StartTag.attributeCode toStartTag
    rw [List.flatMap_map]
    exact congrArg List.flatten (List.map_congr_left fun a _ => a.toText_toAttribute)
  unfold StartTag.toText StartTag.body
  rw [hattributes]
  rfl

theorem pairs_toStartTag (t : QuotedTag) : t.toStartTag.pairs = t.pairs := by
  unfold StartTag.pairs toStartTag pairs
  rw [List.map_map]
  exact List.map_congr_left fun a _ => by rw [Function.comp, a.text_toAttribute]; rfl

/-- A tag is read as it was written. Whatever follows it, the scanner cuts it off as the first token;
its name is found, and whether it closes itself; its attributes have the values that were meant, of
two with one name the later counts; and it starts an element of the directive it is named after, if
there is one, and plays no other part. -/
theorem reads_back (t : QuotedTag) :
    (∀ following, scan (t.toText ++ following) = .tag t.toText :: scan following) ∧
      tagName t.toText = t.name ∧ isSelfClosing t.toText = t.closes ∧
      (∀ name, (Markup.attributes t.toText).get? name = t.pairs.reverse.lookup name) ∧
      ∀ role, lookup? t.toText = some role ↔
        ∃ d : Directive, d.name = t.name ∧ role = .starts d := by
  rw [← t.toText_toStartTag]
  refine ⟨t.toStartTag.scan_write, t.toStartTag.tagName_write, t.toStartTag.isSelfClosing_write,
    fun name => ?_, fun role => t.toStartTag.lookup?_write_iff⟩
  rw [t.toStartTag.attributes_write, Table.get?_ofList, t.pairs_toStartTag]

example : toText {
      name := "include".toList
      attributes := [{
        name := "src".toList
        value := "/a?b&c='\"'".toList
        quote := '\''
        entity := "&#39;".toList
        left := [' ']
        name_ne_nil := by decide
        name_chars := List.all_eq_true.mp rfl }]
      name_ne_nil := by decide
      name_chars := List.all_eq_true.mp rfl } =
    "<esi:include src ='/a?b&amp;c=&#39;\"&#39;'/>".toList := by
  decide

end QuotedTag

end EdgeCompose.Markup
