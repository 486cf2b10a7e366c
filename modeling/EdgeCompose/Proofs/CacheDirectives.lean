import EdgeCompose.Proofs.ResponseHistory
import EdgeCompose.Proofs.Trimming

/-!
What is read from Cache-Control, said of the directives as they are written (`Writes`). A flag is up
if any directive has its name, and a lifetime is what the last directive of its name gives
(`ofHeaders_heeds`). So neither the lines on which directives stand nor the case of their names nor
the blanks around their parts matter, and a directive more never lets an answer be stored.
-/

namespace EdgeCompose.CacheControl

open Text

/-! ## Directives as they are written -/

/-- The texts between commas, of all lines that are text. -/
def pieces (headers : Headers) : List Text :=
  ((headers.getAll fieldName).filterMap Headers.valueText?).flatMap (·.splitOn ',')

/-- A text writes the directive of a name in lower case: the name in any case, then maybe an equals
sign and an argument, and any blanks around these. -/
inductive Writes : Text → Text → Option Text → Prop
  | bare {before word after : Text} : IsBlank before → Tight word → '=' ∉ word → IsBlank after →
    Writes (before ++ (word ++ after)) (lower word) none
  | valued {before word left right argument after : Text} :
    IsBlank before → Tight word → '=' ∉ word → IsBlank left →
    IsBlank right → Tight argument → IsBlank after →
    Writes (before ++ (word ++ left) ++ '=' :: (right ++ (argument ++ after))) (lower word)
      (some argument)

def Names (t name : Text) : Prop := ∃ argument, Writes t name argument

def Alike (t t' : Text) : Prop := ∃ name argument, Writes t name argument ∧ Writes t' name argument

def Says (headers : Headers) (name : Text) : Prop := ∃ t ∈ pieces headers, Names t name

/-- A lifetime is what the last directive of a name gives. -/
structure Lasts (headers : Headers) (name : Text) (lifetime : Option Nat) : Prop where
  absent : ¬ Says headers name → lifetime = none
  last : ∀ front t rest argument, pieces headers = front ++ t :: rest → Writes t name argument →
    (∀ u ∈ rest, ¬ Names u name) → lifetime = argument.bind fun a => u64? (trimChar '"' a)

/-- Flags are what any directive says, lifetimes are what the last one of a name says. -/
structure Heeds (headers : Headers) (cc : CacheControl) : Prop where
  noStore : cc.noStore = true ↔ Says headers "no-store".toList
  noCache : cc.noCache = true ↔ Says headers "no-cache".toList
  isPrivate : cc.isPrivate = true ↔ Says headers "private".toList
  isPublic : cc.isPublic = true ↔ Says headers "public".toList
  mustRevalidate : cc.mustRevalidate = true ↔ Says headers "must-revalidate".toList
  maxAge : Lasts headers "max-age".toList cc.maxAge
  sharedMaxAge : Lasts headers "s-maxage".toList cc.sharedMaxAge

/-- What a request or an answer says against storing the answer. -/
def Refused (r : FetchRequest) (p : Response) : Prop :=
  (ofHeaders r.headers).noStore = true ∨ (ofHeaders p.headers).noStore = true ∨
    (ofHeaders p.headers).noCache = true ∨ (ofHeaders p.headers).isPrivate = true

/-! ## Reading one directive -/

variable {t name : Text} {argument : Option Text} {headers more : Headers}

theorem directive_bare (h : '=' ∉ t) : directive t = (lower (trim t), none) := by
  have hcut : splitOnce? '=' (trim t) = none :=
    splitOnce?_eq_none_iff.mpr fun hmem => h (trim_subset t hmem)
  simp only [directive, hcut]

theorem directive_valued {before rest : Text} (h : '=' ∉ before) :
    directive (before ++ '=' :: rest) =
      (lower (trim before), some (trimChar '"' (trim rest))) := by
  have hcut : splitOnce? '=' (before ++ '=' :: rest) = some (before, rest) :=
    splitOnce?_eq_some_iff.mpr ⟨rfl, h⟩
  simp only [directive, splitOnce?_trim (by decide) hcut, trim_dropWhile, trim_trimEnd]

theorem directive_of_writes (h : Writes t name argument) :
    directive t = (name, argument.map (trimChar '"')) := by
  cases h with
  | bare hbefore hword hfree hafter =>
    rw [directive_bare, trim_around hbefore hafter hword]
    · rfl
    · have hb := hbefore.not_mem (c := '=') (by decide)
      have ha := hafter.not_mem (c := '=') (by decide)
      simp [hb, hfree, ha]
  | valued hbefore hword hfree hleft hright hargument hafter =>
    rw [directive_valued, trim_around hbefore hleft hword, trim_around hright hafter hargument]
    · rfl
    · have hb := hbefore.not_mem (c := '=') (by decide)
      have hl := hleft.not_mem (c := '=') (by decide)
      simp [hb, hfree, hl]

/-- Every text writes some directive. -/
theorem exists_writes (t : Text) : ∃ name argument, Writes t name argument := by
  cases hcut : splitOnce? '=' t with
  | none =>
    have hfree := splitOnce?_eq_none_iff.mp hcut
    obtain ⟨before, after, hbefore, hafter, ht⟩ := exists_around t
    have hbare := Writes.bare hbefore (tight_trim t) (fun hmem => hfree (trim_subset t hmem)) hafter
    rw [← ht] at hbare
    exact ⟨_, _, hbare⟩
  | some found =>
    obtain ⟨front, rest⟩ := found
    obtain ⟨rfl, hfree⟩ := splitOnce?_eq_some_iff.mp hcut
    obtain ⟨before, left, hbefore, hleft, hfront⟩ := exists_around front
    obtain ⟨right, after, hright, hafter, hrest⟩ := exists_around rest
    have hvalued := Writes.valued hbefore (tight_trim front)
      (fun hmem => hfree (trim_subset front hmem)) hleft hright (tight_trim rest) hafter
    rw [← hfront, ← hrest] at hvalued
    exact ⟨_, _, hvalued⟩

theorem directive_fst_eq_iff : (directive t).1 = name ↔ Names t name := by
  constructor
  · rintro rfl
    obtain ⟨name, argument, h⟩ := exists_writes t
    rw [directive_of_writes h]
    exact ⟨argument, h⟩
  · rintro ⟨argument, h⟩
    rw [directive_of_writes h]

/-! ## Reading one directive after the other -/

theorem apply_eq (cc : CacheControl) (d : Text × Option Text) :
    apply cc d =
      { noStore := cc.noStore || d.1 == "no-store".toList
        noCache := cc.noCache || d.1 == "no-cache".toList
        isPrivate := cc.isPrivate || d.1 == "private".toList
        isPublic := cc.isPublic || d.1 == "public".toList
        mustRevalidate := cc.mustRevalidate || d.1 == "must-revalidate".toList
        maxAge := if d.1 = "max-age".toList then d.2.bind u64? else cc.maxAge
        sharedMaxAge := if d.1 = "s-maxage".toList then d.2.bind u64? else cc.sharedMaxAge } := by
  cases cc
  unfold apply
  split_ifs <;> simp_all

theorem ofHeaders_eq (headers : Headers) :
    ofHeaders headers = ((pieces headers).map directive).foldl apply {} := by
  unfold ofHeaders ofLines pieces
  rw [List.map_flatMap]
  rfl

/-- A flag that the directives of one name put up and none takes down. -/
structure IsFlag (flag : CacheControl → Bool) (name : Text) : Prop where
  start : flag {} = false
  step : ∀ cc d, flag (apply cc d) = (flag cc || d.1 == name)

theorem IsFlag.up_iff {flag : CacheControl → Bool} (h : IsFlag flag name) (headers : Headers) :
    flag (ofHeaders headers) = true ↔ Says headers name := by
  have hrun (ds : List (Text × Option Text)) (cc : CacheControl) :
      flag (ds.foldl apply cc) = (flag cc || ds.any (·.1 == name)) := by
    induction ds generalizing cc with
    | nil => simp
    | cons d ds ih => rw [List.foldl_cons, ih, h.step, List.any_cons, Bool.or_assoc]
  rw [ofHeaders_eq, hrun, h.start, Bool.false_or, List.any_map, List.any_eq_true]
  simp only [Function.comp_apply, beq_iff_eq, directive_fst_eq_iff, Says]

/-- A lifetime that each directive of one name sets anew. -/
structure IsLifetime (lifetime : CacheControl → Option Nat) (name : Text) : Prop where
  start : lifetime {} = none
  step : ∀ cc d, lifetime (apply cc d) = if d.1 = name then d.2.bind u64? else lifetime cc

theorem IsLifetime.lasts {lifetime : CacheControl → Option Nat} (h : IsLifetime lifetime name)
    (headers : Headers) : Lasts headers name (lifetime (ofHeaders headers)) := by
  have hkept (ts : List Text) (cc : CacheControl) (hts : ∀ t ∈ ts, ¬ Names t name) :
      lifetime ((ts.map directive).foldl apply cc) = lifetime cc := by
    induction ts generalizing cc with
    | nil => rfl
    | cons t ts ih =>
      obtain ⟨ht, hts⟩ := List.forall_mem_cons.mp hts
      rw [List.map_cons, List.foldl_cons, ih _ hts, h.step, if_neg (mt directive_fst_eq_iff.mp ht)]
  rw [ofHeaders_eq]
  constructor
  · intro habsent
    rw [hkept _ _ fun t ht hnames => habsent ⟨t, ht, hnames⟩, h.start]
  · intro front t rest argument hpieces hwrites hrest
    -- Whatever the pieces in front have set, this one sets it anew and the rest lets it be.
    rw [hpieces, List.map_append, List.map_cons, List.foldl_append, List.foldl_cons, hkept _ _ hrest,
      h.step, directive_of_writes hwrites, if_pos rfl, Option.bind_map]
    rfl

theorem ofHeaders_heeds (headers : Headers) : Heeds headers (ofHeaders headers) where
  noStore := IsFlag.up_iff ⟨rfl, fun cc d => by rw [apply_eq]⟩ headers
  noCache := IsFlag.up_iff ⟨rfl, fun cc d => by rw [apply_eq]⟩ headers
  isPrivate := IsFlag.up_iff ⟨rfl, fun cc d => by rw [apply_eq]⟩ headers
  isPublic := IsFlag.up_iff ⟨rfl, fun cc d => by rw [apply_eq]⟩ headers
  mustRevalidate := IsFlag.up_iff ⟨rfl, fun cc d => by rw [apply_eq]⟩ headers
  maxAge := IsLifetime.lasts ⟨rfl, fun cc d => by rw [apply_eq]⟩ headers
  sharedMaxAge := IsLifetime.lasts ⟨rfl, fun cc d => by rw [apply_eq]⟩ headers

/-! ## Other lines, other spellings and more directives -/

theorem ofHeaders_congr (h : List.Forall₂ Alike (pieces headers) (pieces more)) :
    ofHeaders headers = ofHeaders more := by
  rw [ofHeaders_eq, ofHeaders_eq]
  generalize pieces headers = ts, pieces more = ts' at h
  congr 1
  induction h with
  | nil => rfl
  | cons halike _ ih =>
    obtain ⟨name, argument, hwrites, hwrites'⟩ := halike
    rw [List.map_cons, List.map_cons, ih, directive_of_writes hwrites, directive_of_writes hwrites']

theorem Says.mono (hadd : (pieces headers).Sublist (pieces more)) (h : Says headers name) :
    Says more name := by
  obtain ⟨t, ht, hnames⟩ := h
  exact ⟨t, hadd.subset ht, hnames⟩

/-- A byte for each comma between the lines. -/
def joined (values : List Bytes) : Bytes := [44].intercalate values

theorem valueText?_append {v w : Bytes} {t u : Text} (hv : Headers.valueText? v = some t)
    (hw : Headers.valueText? w = some u) : Headers.valueText? (v ++ w) = some (t ++ u) := by
  obtain ⟨hall, rfl⟩ := Headers.valueText?_eq_some_iff.mp hv
  obtain ⟨hall', rfl⟩ := Headers.valueText?_eq_some_iff.mp hw
  exact Headers.valueText?_eq_some_iff.mpr ⟨List.forall_mem_append.mpr ⟨hall, hall'⟩, List.map_append⟩

/-- A line that joins lines holds their pieces; one that joins none holds an empty one. -/
theorem splitOn_joined {values : List Bytes}
    (h : ∀ v ∈ values, (Headers.valueText? v).isSome = true) :
    ∃ line, Headers.valueText? (joined values) = some line ∧ (values ≠ [] →
      line.splitOn ',' = (values.filterMap Headers.valueText?).flatMap (·.splitOn ',')) := by
  induction values with
  | nil => exact ⟨[], rfl, fun hne => (hne rfl).elim⟩
  | cons v values ih =>
    obtain ⟨hv, hvalues⟩ := List.forall_mem_cons.mp h
    obtain ⟨t, ht⟩ := Option.isSome_iff_exists.mp hv
    obtain ⟨line, hline, hsplit⟩ := ih hvalues
    cases values with
    | nil => exact ⟨t, by rwa [joined, List.intercalate_singleton], fun _ => by simp [ht]⟩
    | cons w values =>
      refine ⟨t ++ ',' :: line, ?_, fun _ => ?_⟩
      · have hcomma : Headers.valueText? [44] = some [','] := rfl
        unfold joined at hline ⊢
        rw [List.intercalate_cons_cons, valueText?_append (valueText?_append ht hcomma) hline,
          List.append_assoc]
        rfl
      · rw [List.splitOn_append_cons_self, hsplit (List.cons_ne_nil _ _),
          List.filterMap_cons_some ht, List.flatMap_cons]

theorem ofHeaders_joined {values : List Bytes}
    (h : ∀ v ∈ values, (Headers.valueText? v).isSome = true)
    (hlines : headers.getAll fieldName = values) (hline : more.getAll fieldName = [joined values]) :
    ofHeaders headers = ofHeaders more := by
  obtain ⟨line, hread, hsplit⟩ := splitOn_joined h
  rw [ofHeaders_eq, ofHeaders_eq]
  unfold pieces
  rw [hlines, hline, List.filterMap_cons_some hread, List.filterMap_nil, List.flatMap_singleton]
  cases values with
  | nil =>
    cases hread
    rfl
  | cons v values => rw [hsplit (List.cons_ne_nil v values)]

/-- More directives on a request and on an answer do not undo a refusal. -/
theorem Refused.mono {r r' : FetchRequest} {p p' : Response}
    (hr : (pieces r.headers).Sublist (pieces r'.headers))
    (hp : (pieces p.headers).Sublist (pieces p'.headers)) (h : Refused r p) : Refused r' p' := by
  unfold Refused at h ⊢
  simp only [(ofHeaders_heeds _).noStore, (ofHeaders_heeds _).noCache,
    (ofHeaders_heeds _).isPrivate] at h ⊢
  exact h.imp (.mono hr) (.imp (.mono hp) (.imp (.mono hp) (.mono hp)))

theorem Refused.store_eq {r : FetchRequest} {p : Response} (h : Refused r p) (s : ResponseStore)
    (now : Int) : s.store now r p = (.ok false, s) := by
  unfold ResponseStore.store
  cases hs : ResponseStore.storable? r p with
  | none => rfl
  | some found =>
    have hcontrol := (ResponseHistory.Accepted.storable?_eq_some
      (a := { request := r, response := p, time := now }) hs).1.control
    have hwanted := (ResponseHistory.wanted_of_storable? hs).2
    rcases h with h | h | h | h
    · cases h.symm.trans hwanted
    · cases h.symm.trans hcontrol.1
    · cases h.symm.trans hcontrol.2.1
    · cases h.symm.trans hcontrol.2.2

/-- What is read from Cache-Control is decided by the directives, whatever lines they stand on and
however they are spelled; and a refused exchange stays refused when directives are added to it. -/
theorem directives_decide :
    (∀ headers, Heeds headers (ofHeaders headers)) ∧
    (∀ (values : List Bytes) (lines line : Headers),
      (∀ v ∈ values, (Headers.valueText? v).isSome = true) →
        lines.getAll fieldName = values → line.getAll fieldName = [joined values] →
          ofHeaders lines = ofHeaders line) ∧
    (∀ headers headers', List.Forall₂ Alike (pieces headers) (pieces headers') →
      ofHeaders headers = ofHeaders headers') ∧
    (∀ headers more, (pieces headers).Sublist (pieces more) →
      ((ofHeaders headers).noStore = true → (ofHeaders more).noStore = true) ∧
      ((ofHeaders headers).noCache = true → (ofHeaders more).noCache = true) ∧
      ((ofHeaders headers).isPrivate = true → (ofHeaders more).isPrivate = true)) ∧
    ∀ (s : ResponseStore) (now : Int) (r r' : FetchRequest) (p p' : Response),
      (pieces r.headers).Sublist (pieces r'.headers) →
      (pieces p.headers).Sublist (pieces p'.headers) → Refused r p →
        s.store now r p = (.ok false, s) ∧ s.store now r' p' = (.ok false, s) := by
  refine ⟨ofHeaders_heeds, fun _ _ _ => ofHeaders_joined, fun _ _ => ofHeaders_congr, ?_, ?_⟩
  · intro headers more hadd
    simp only [(ofHeaders_heeds _).noStore, (ofHeaders_heeds _).noCache,
      (ofHeaders_heeds _).isPrivate]
    exact ⟨.mono hadd, .mono hadd, .mono hadd⟩
  · intro s now r r' p p' hr hp h
    exact ⟨h.store_eq s now, (h.mono hr hp).store_eq s now⟩

def written (lines : List String) : Headers :=
  lines.map fun line => (fieldName, Utf8.encode line.toList)

/-- Two lines and one, a directive in two spellings, and a private answer that has also got a
lifetime. -/
theorem directives_decide_shared :
    ofHeaders (written ["no-cache", "max-age=5"]) = ofHeaders (written ["no-cache,max-age=5"]) ∧
    ofHeaders (written ["max-age=5"]) = ofHeaders (written [" Max-Age = 5"]) ∧
    (ofHeaders (written ["private", "max-age=5"])).isPrivate = true ∧
    ∀ r : FetchRequest, ResponseStore.store { capacity := 1 } 0 r
      { status := 200, headers := written ["private", "max-age=5"] } =
        (.ok false, { capacity := 1 }) := by
  obtain ⟨-, hlines, hspelling, hflags, hstore⟩ := directives_decide
  have hprivate : (ofHeaders (written ["private"])).isPrivate = true := by decide +kernel
  have hadd : (pieces (written ["private"])).Sublist (pieces (written ["private", "max-age=5"])) := by
    decide +kernel
  refine ⟨hlines _ _ _ ?_ rfl (by decide +kernel), hspelling _ _ ?_, (hflags _ _ hadd).2.2 hprivate,
    fun r => (hstore _ 0 r r { status := 200, headers := written ["private"] } _ (List.Sublist.refl _)
      hadd (.inr (.inr (.inr hprivate)))).2⟩
  · decide +kernel
  · have hplain : pieces (written ["max-age=5"]) = ["max-age=5".toList] := by decide +kernel
    have hspaced : pieces (written [" Max-Age = 5"]) = [" Max-Age = 5".toList] := by decide +kernel
    have hname (word : Text) (h : word = "max-age".toList ∨ word = "Max-Age".toList) : Tight word := by
      rcases h with rfl | rfl <;> exact ⟨by rintro c ⟨⟩; rfl, by rintro c ⟨⟩; rfl⟩
    have hargument : Tight "5".toList := ⟨by rintro c ⟨⟩; rfl, by rintro c ⟨⟩; rfl⟩
    have hnone : IsBlank [] := by simp [IsBlank]
    have hspace : IsBlank [' '] := by simp [IsBlank, isBlank]
    rw [hplain, hspaced]
    refine .cons ⟨"max-age".toList, some "5".toList, ?_, ?_⟩ .nil
    · exact .valued hnone (hname _ (.inl rfl)) (by decide) hnone hnone hargument hnone
    · exact .valued hspace (hname _ (.inr rfl)) (by decide) hspace hspace hargument hnone

end EdgeCompose.CacheControl
