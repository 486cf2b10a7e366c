import EdgeCompose.Proofs.ResponseHistory

/-!
Who is served the answer to another's request. A stored answer is matched by the first value of
each field that it varies by, and by that only where it reads as text. So a store keeps the requests
of a class apart exactly if for these requests the readings of a field tell all of its values apart
(`isolates_iff`); requests that repeat no field and send only text are such a class.
-/

namespace EdgeCompose.ResponseHistory

open ResponseStore

/-! ## Lines of Vary -/

/-- The pieces of a list that is split hold no separator and nothing that is not in the list. -/
theorem mem_splitOn {α : Type} [BEq α] [LawfulBEq α] {sep : α} {xs item : List α}
    (h : item ∈ xs.splitOn sep) : sep ∉ item ∧ item ⊆ xs := by
  induction xs generalizing item with
  | nil =>
    rw [List.splitOn_nil, List.mem_singleton] at h
    subst h
    simp
  | cons x xs ih =>
    rw [List.splitOn_cons_eq_if_modifyHead] at h
    split at h
    · rcases List.mem_cons.mp h with rfl | h
      · simp
      · exact ⟨(ih h).1, List.subset_cons_of_subset x (ih h).2⟩
    · next hx =>
      have hne : sep ≠ x := by
        rintro rfl
        simp at hx
      cases hsplit : xs.splitOn sep with
      | nil => exact (List.splitOn_ne_nil sep xs hsplit).elim
      | cons first others =>
        rw [hsplit, List.modifyHead_cons] at h
        rw [hsplit] at ih
        rcases List.mem_cons.mp h with rfl | h
        · obtain ⟨hsep, hsub⟩ := ih List.mem_cons_self
          exact ⟨by simp [hne, hsep], List.cons_subset_cons x hsub⟩
        · obtain ⟨hsep, hsub⟩ := ih (List.mem_cons_of_mem _ h)
          exact ⟨hsep, List.subset_cons_of_subset x hsub⟩

/-- The text of a value is the text of its bytes. -/
theorem exists_value {line : Text}
    (h : ∀ c ∈ line, ∃ b, Headers.isTextByte b = true ∧ Char.ofNat b.toNat = c) :
    ∃ value, Headers.valueText? value = some line := by
  induction line with
  | nil => exact ⟨[], rfl⟩
  | cons c line ih =>
    obtain ⟨⟨b, hb, rfl⟩, hline⟩ := List.forall_mem_cons.mp h
    obtain ⟨value, hvalue⟩ := ih hline
    obtain ⟨hall, rfl⟩ := Headers.valueText?_eq_some_iff.mp hvalue
    exact ⟨b :: value, Headers.valueText?_eq_some_iff.mpr
      ⟨List.forall_mem_cons.mpr ⟨hb, hall⟩, List.map_cons⟩⟩

/-- What a line of Vary names, some line names alone. -/
theorem Varies.alone {headers : Headers} {name : Text} (h : Varies headers name) :
    ∃ value line, Headers.valueText? value = some line ∧ line.splitOn ',' = [line] ∧
      name = Text.lower (Text.trim line) := by
  obtain ⟨value, -, line, hvalue, item, hitem, rfl⟩ := h
  obtain ⟨hsep, hsub⟩ := mem_splitOn hitem
  have hbytes : ∀ c ∈ item, ∃ b, Headers.isTextByte b = true ∧ Char.ofNat b.toNat = c := by
    intro c hc
    obtain ⟨hall, rfl⟩ := Headers.valueText?_eq_some_iff.mp hvalue
    obtain ⟨b, hb, rfl⟩ := List.mem_map.mp (hsub hc)
    exact ⟨b, hall b hb, rfl⟩
  obtain ⟨value', hvalue'⟩ := exists_value hbytes
  exact ⟨value', item, hvalue', List.splitOn_eq_singleton hsep, rfl⟩

/-! ## Classes of requests -/

def Event.Within (R : FetchRequest → Prop) : Event → Prop
  | .store r _ => R r
  | .lookup r => R r
  | .advance _ => True

/-- The answer was stored for a request that has the same values as this one for every field that
the answer varies by. -/
def State.HitsAlike (s : State) (r : FetchRequest) (p : Response) : Prop :=
  ∃ a, s.latest? r.key = some a ∧ a.response = p ∧
    ∀ name, Varies p.headers name → name ≠ [] →
      r.headers.getAll name = a.request.headers.getAll name

/-- After all that requests of a class can do to a new store, a hit for one of them is an answer to
one with the same values. -/
def Isolates (R : FetchRequest → Prop) : Prop :=
  ∀ (capacity : Nat) (clock : Clock) (events : List Event) (r : FetchRequest) (p : Response),
    (∀ e ∈ events, e.Within R) → R r →
      (((State.fresh capacity clock).run events).store.lookup
        ((State.fresh capacity clock).run events).now r).1 = .hit p →
      ((State.fresh capacity clock).run events).HitsAlike r p

/-- Where two requests of a class can meet in a store, the readings of a field that some answer can
vary by are the same only if all values of the field are. -/
def ToldApart (R : FetchRequest → Prop) : Prop :=
  ∀ r stored, R r → R stored → stored.key = r.key → ¬ Bypasses r →
    (CacheControl.ofHeaders stored.headers).noStore = false →
      ∀ name, (∃ headers, Varies headers name) → name ≠ [] → name ≠ ['*'] →
        r.headers.text? name = stored.headers.text? name →
          r.headers.getAll name = stored.headers.getAll name

/-! ## From the readings to the values -/

theorem Accepted.noStore_of_stored? {a : Accepted} {e : StoredResponse} (h : a.stored? = some e) :
    (CacheControl.ofHeaders a.request.headers).noStore = false := by
  obtain ⟨found, hs, -⟩ := Option.map_eq_some_iff.mp h
  exact (wanted_of_storable? hs).2

theorem State.step_within {R : FetchRequest → Prop} {s : State} {event : Event}
    (h : event.Within R) (hs : ∀ a ∈ s.accepted, R a.request) :
    ∀ a ∈ (s.step event).accepted, R a.request := by
  cases event with
  | store r p =>
    simp only [step]
    split
    · intro a hmem
      rcases List.mem_cons.mp hmem with rfl | hmem
      · exact h
      · exact hs a hmem
    · exact hs
  | lookup r => exact hs
  | advance seconds => exact hs

theorem State.run_within {R : FetchRequest → Prop} {events : List Event} {s : State}
    (h : ∀ e ∈ events, e.Within R) (hs : ∀ a ∈ s.accepted, R a.request) :
    ∀ a ∈ (s.run events).accepted, R a.request := by
  induction events generalizing s with
  | nil => exact hs
  | cons event events ih =>
    obtain ⟨hfirst, hrest⟩ := List.forall_mem_cons.mp h
    exact ih hrest (step_within hfirst hs)

theorem ToldApart.isolates {R : FetchRequest → Prop} (h : ToldApart R) : Isolates R := by
  intro capacity clock events r p hevents hr
  generalize hrun : (State.fresh capacity clock).run events = s
  intro hhit
  have hsound : s.Sound := hrun ▸ State.run_sound (State.fresh_sound capacity clock) events
  have hwithin : ∀ a ∈ s.accepted, R a.request :=
    hrun ▸ State.run_within hevents (by simp [State.fresh])
  rcases State.lookup_of_sound hsound r with ⟨-, heq⟩ | ⟨hbypass, p', hanswers, heq⟩ | ⟨-, -, heq⟩
  · cases heq.symm.trans hhit
  · cases heq.symm.trans hhit
    obtain ⟨a, hlatest, rfl, hfresh, hagrees⟩ := hanswers
    obtain ⟨e, -, hstored⟩ := hsound.kept _ a hlatest hfresh
    have hmem : a ∈ s.accepted := List.mem_of_find?_eq_some hlatest
    have hkey : a.request.key = r.key := by simpa using List.find?_some hlatest
    refine ⟨a, hlatest, rfl, fun name hvaries hne => ?_⟩
    refine h r a.request hr (hwithin a hmem) hkey hbypass (Accepted.noStore_of_stored? hstored) name
      ⟨_, hvaries⟩ hne ?_ (hagrees name hvaries hne)
    rintro rfl
    exact (Accepted.allowed_of_stored? hstored).vary hvaries
  · cases heq.symm.trans hhit

/-! ## From the values to the readings -/

/-- An answer that may be stored for a minute and varies by what one line names. -/
def varying (line : Bytes) : Response where
  status := 200
  headers := [(CacheControl.fieldName, Utf8.encode "public, max-age=60".toList),
    ("vary".toList, line)]

theorem control_varying (line : Bytes) : CacheControl.ofHeaders (varying line).headers =
    { isPublic := true, maxAge := some 60 } := by
  have hlines : (varying line).headers.getAll CacheControl.fieldName =
      [Utf8.encode "public, max-age=60".toList] := rfl
  unfold CacheControl.ofHeaders
  rw [hlines]
  decide +kernel

theorem varyFields?_varying {value : Bytes} {line : Text}
    (hvalue : Headers.valueText? value = some line) (hsplit : line.splitOn ',' = [line])
    (hne : Text.lower (Text.trim line) ≠ []) (hstar : Text.lower (Text.trim line) ≠ ['*']) :
    varyFields? (varying value).headers = some [Text.lower (Text.trim line)] := by
  have hlines : (varying value).headers.getAll "vary".toList = [value] := rfl
  have hnames : varyNames? line = some [Text.lower (Text.trim line)] := by
    simp [varyNames?, hsplit, hne, Ne.symm hstar]
  unfold varyFields?
  rw [hlines]
  simp [hvalue, hnames]

theorem storable?_varying {r : FetchRequest} {value : Bytes} {name : Text}
    (hmethod : isCacheableMethod r.method = true)
    (hnoStore : (CacheControl.ofHeaders r.headers).noStore = false)
    (hvary : varyFields? (varying value).headers = some [name]) :
    storable? r (varying value) = some (60, [name]) := by
  have hstatus : cacheableStatuses.contains (varying value).status = true := rfl
  have hlifetime : ((none <|> some 60 : Option Nat).filter (· != 0)) = some 60 := rfl
  simp only [storable?, hmethod, hstatus, hnoStore, control_varying, hvary, CacheControl.lifetime?,
    CacheControl.allowsAuthorized, hlifetime, Bool.not_true, Bool.or_self, Bool.false_eq_true, if_false,
    Bool.true_or, Bool.and_false, Option.map_some]

/-- A store that has place for one answer, and what is done to it. -/
def small : State := .fresh 1 {}

theorem accepted_small {r : FetchRequest} {p : Response} {names : List Text}
    (h : storable? r p = some (60, names)) :
    (small.run [.store r p]).accepted = [{ request := r, response := p, time := small.now }] := by
  have hfull : isFullFor { capacity := 1 } r.key = false := by
    simp [isFullFor, ResponseStore.size]
  have hroom : Clock.after? small.now (60 : Nat) = .ok (small.now + 60) := rfl
  have hkept : (small.store.store small.now r p).1 = .ok true := by
    simp only [ResponseStore.store, small, State.fresh, h, makeRoom, hfull, Bool.false_eq_true,
      if_false] at hroom ⊢
    simp only [hroom]
  simp only [State.run, List.foldl_cons, List.foldl_nil, State.step]
  generalize small.store.store small.now r p = found at hkept
  obtain ⟨kept, store⟩ := found
  cases hkept
  rfl

theorem State.now_store (s : State) (r : FetchRequest) (p : Response) :
    (s.step (.store r p)).now = s.now := by
  unfold step
  simp only
  split <;> rfl

theorem Isolates.toldApart {R : FetchRequest → Prop} (h : Isolates R) : ToldApart R := by
  intro r stored hr hstored hkey hbypass hnoStore name hnamed hne hstar htext
  obtain ⟨headers, hvaries⟩ := hnamed
  obtain ⟨value, line, hvalue, hsplit, hname⟩ := hvaries.alone
  rw [hname] at hne hstar
  have hvary := varyFields?_varying hvalue hsplit hne hstar
  rw [← hname] at hvary hne
  have hmethod : isCacheableMethod stored.method = true := by
    have hsame : stored.method = r.method := congrArg RequestKey.method hkey
    rw [← bypasses_iff, Bool.not_eq_true, Bool.or_eq_false_iff] at hbypass
    rw [hsame]
    simpa using hbypass.1
  let a : Accepted := { request := stored, response := varying value, time := small.now }
  have hstorable := storable?_varying hmethod hnoStore hvary
  have haccepted := accepted_small hstorable
  have hlatest : (small.run [.store stored (varying value)]).latest? r.key = some a := by
    simp [State.latest?, haccepted, hkey, a]
  have hnamed := (varyFields?_eq_some hvary).1
  have hagrees : a.Agrees r := by
    intro other hother hne'
    obtain rfl : other = name := by simpa using (hnamed other).mpr ⟨hother, hne'⟩
    exact htext
  have hfresh : a.Fresh (small.run [.store stored (varying value)]).now := by
    have hnow : (small.run [.store stored (varying value)]).now = small.now := State.now_store ..
    have hage : (a.control.sharedMaxAge <|> a.control.maxAge) = some 60 :=
      congrArg (fun cc : CacheControl => cc.sharedMaxAge <|> cc.maxAge) (control_varying value)
    exact ⟨60, hage, by rw [hnow]; exact Int.lt_add_of_pos_right _ (by decide)⟩
  have hsound : (small.run [.store stored (varying value)]).Sound :=
    State.run_sound (State.fresh_sound 1 {}) _
  have hanswers : State.Answers (small.run [.store stored (varying value)]) r (varying value) :=
    ⟨a, hlatest, rfl, hfresh, hagrees⟩
  rcases State.lookup_of_sound hsound r with ⟨hb, -⟩ | ⟨-, p, ⟨a', hlatest', rfl, -⟩, hhit⟩ | ⟨-, hno, -⟩
  · exact (hbypass hb).elim
  · obtain rfl : a = a' := Option.some.inj (hlatest.symm.trans hlatest')
    obtain ⟨a'', hlatest'', -, hsame⟩ := h 1 {} [.store stored (varying value)] r _
      (by simpa [Event.Within] using hstored) hr hhit
    obtain rfl : a = a'' := Option.some.inj (hlatest.symm.trans hlatest'')
    exact hsame name ((hnamed name).mp List.mem_cons_self).1 hne
  · exact (hno _ hanswers).elim

/-- A store isolates the requests of a class exactly if the readings of each field that an answer can
vary by tell the values apart that the requests of the class have for it. -/
theorem isolates_iff (R : FetchRequest → Prop) : Isolates R ↔ ToldApart R :=
  ⟨Isolates.toldApart, ToldApart.isolates⟩

/-! ## A class that is told apart and one that is not -/

theorem valueText?_injective {value value' : Bytes} {line : Text}
    (h : Headers.valueText? value = some line) (h' : Headers.valueText? value' = some line) :
    value = value' := by
  have hchar (b b' : UInt8) (hsame : Char.ofNat b.toNat = Char.ofNat b'.toNat) : b = b' := by
    have hread (b : UInt8) : (Char.ofNat b.toNat).toNat = b.toNat := by
      have hvalid : b.toNat.isValidChar := .inl (Nat.lt_trans b.toNat_lt (by decide))
      rw [Char.ofNat, dif_pos hvalid]
      rfl
    exact UInt8.toNat_inj.mp ((hread b).symm.trans ((congrArg Char.toNat hsame).trans (hread b')))
  have hbytes := (Headers.valueText?_eq_some_iff.mp h).2
  have hbytes' := (Headers.valueText?_eq_some_iff.mp h').2
  exact (List.map_inj_right hchar).mp (hbytes.trans hbytes'.symm)

def SingleText (r : FetchRequest) : Prop :=
  ∀ name, r.headers.getAll name = [] ∨
    ∃ value text, r.headers.getAll name = [value] ∧ Headers.valueText? value = some text

theorem singleText_toldApart : ToldApart SingleText := by
  intro r stored hr hstored _ _ _ name _ _ _ htext
  unfold Headers.text? Headers.get? at htext
  rcases hr name with hnone | ⟨value, text, hvalue, hread⟩ <;>
    rcases hstored name with hnone' | ⟨value', text', hvalue', hread'⟩
  · rw [hnone, hnone']
  · simp [hnone, hvalue', hread'] at htext
  · simp [hvalue, hread, hnone'] at htext
  · obtain rfl : text = text' := by simpa [hvalue, hread, hvalue', hread'] using htext
    rw [hvalue, hvalue', valueText?_injective hread hread']

def anyUrl : Url where
  scheme := "http".toList
  authority := some { host := some (.domain "host".toList) }
  path := "/".toList

def inLanguages (languages : List String) : FetchRequest where
  url := anyUrl
  headers := languages.map fun language =>
    ("accept-language".toList, Utf8.encode language.toList)

def spoken : Response := varying (Utf8.encode "accept-language".toList)

/-- The answer to a request in two languages is served to a request in the first of them. -/
theorem repeated_not_isolated :
    ((small.run [.store (inLanguages ["en", "de"]) spoken]).store.lookup small.now
        (inLanguages ["en"])).1 = .hit spoken ∧
      Varies spoken.headers "accept-language".toList ∧
      (inLanguages ["en"]).headers.getAll "accept-language".toList ≠
        (inLanguages ["en", "de"]).headers.getAll "accept-language".toList ∧
      ¬ Isolates fun _ => True := by
  have hstorable : storable? (inLanguages ["en", "de"]) spoken =
      some (60, ["accept-language".toList]) := by decide +kernel
  have hhit : ((small.run [.store (inLanguages ["en", "de"]) spoken]).store.lookup small.now
      (inLanguages ["en"])).1 = .hit spoken := by decide +kernel
  have hnames := (Accepted.storable?_eq_some
    (a := { request := inLanguages ["en", "de"], response := spoken, time := small.now })
    hstorable).2.2
  have hvaries : Varies spoken.headers "accept-language".toList :=
    (((varyFields?_eq_some hnames).1 _).mp List.mem_cons_self).1
  have hdiffer : (inLanguages ["en"]).headers.getAll "accept-language".toList ≠
      (inLanguages ["en", "de"]).headers.getAll "accept-language".toList := by decide +kernel
  refine ⟨hhit, hvaries, hdiffer, fun h => hdiffer ?_⟩
  obtain ⟨a, hlatest, -, hsame⟩ := h 1 {} [.store (inLanguages ["en", "de"]) spoken]
    (inLanguages ["en"]) spoken (by simp [Event.Within]) trivial hhit
  have hkey : (inLanguages ["en", "de"]).key = (inLanguages ["en"]).key := rfl
  obtain rfl : { request := inLanguages ["en", "de"], response := spoken, time := small.now } = a := by
    have haccepted := accepted_small hstorable
    have hfirst : (small.run [.store (inLanguages ["en", "de"]) spoken]).latest?
        (inLanguages ["en"]).key =
          some { request := inLanguages ["en", "de"], response := spoken, time := small.now } := by
      simp [State.latest?, haccepted, hkey]
    exact Option.some.inj (hfirst.symm.trans hlatest)
  exact hsame _ hvaries (by decide)

end EdgeCompose.ResponseHistory
