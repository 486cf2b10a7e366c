import Mathlib.Data.List.Nodup
import EdgeCompose.Config.Load
import EdgeCompose.Proofs.PageOrigin

/-!
What validation finds. A configuration has rules to keep, some of them for each of its backends, and
its problems are those of the rules that it breaks, in their order. One without problems is usable as
it stands: the table of its backends loses none of them, and its default is one of them
(`problems_exact`).
-/

namespace EdgeCompose

/-! ## Tables of distinct keys -/

namespace Table

variable {κ β : Type} [DecidableEq κ]

theorem entries_insert_of_notMem {t : Table κ β} {k : κ} (h : k ∉ t.entries.map Prod.fst) (v : β) :
    (t.insert k v).entries = t.entries ++ [(k, v)] := by
  have hkeep : (t.erase k).entries = t.entries := by
    refine List.filter_eq_self.mpr fun e he => ?_
    have hne : e.1 ≠ k := by
      rintro rfl
      exact h (List.mem_map_of_mem he)
    simpa using hne
  show (t.erase k).entries ++ [(k, v)] = t.entries ++ [(k, v)]
  rw [hkeep]

/-- Pairs with distinct keys all stay. -/
theorem entries_ofList {pairs : List (κ × β)} (h : (pairs.map Prod.fst).Nodup) :
    (ofList pairs).entries = pairs := by
  have hfold (t : Table κ β) (ht : ((t.entries ++ pairs).map Prod.fst).Nodup) :
      (pairs.foldl (fun t e => t.insert e.1 e.2) t).entries = t.entries ++ pairs := by
    clear h
    induction pairs generalizing t with
    | nil => simp
    | cons e pairs ih =>
      have hnew : e.1 ∉ t.entries.map Prod.fst := by
        rw [List.map_append, List.nodup_append] at ht
        intro hmem
        exact ht.2.2 _ hmem _ List.mem_cons_self rfl
      have hentries := entries_insert_of_notMem hnew e.2
      rw [List.foldl_cons, ih _ (by simpa [hentries] using ht), hentries]
      simp
  exact hfold empty h

end Table

namespace Config

/-! ## Rules -/

/-- What a configuration has to keep. Rules about a backend carry its place. -/
inductive Rule where
  | bindAddress
  | name (i : Nat) (b : BackendConfig)
  | baseUrl (i : Nat) (b : BackendConfig)
  | defaultBackend (name : Text)
  | positive (field : String) (n : Nat)
  deriving DecidableEq, Repr

def rulesFrom (i : Nat) (bs : List BackendConfig) : List Rule :=
  (bs.zipIdx i).flatMap fun e => [.name e.2 e.1, .baseUrl e.2 e.1]

/-- The rules of a configuration in the order of its fields. -/
def rules (c : Config) : List Rule :=
  .bindAddress :: rulesFrom 0 c.backends ++ c.defaultBackend.toList.map .defaultBackend ++
    [.positive "pool.max_connections" c.pool.maxConnections,
      .positive "timeouts.connect_secs" c.timeouts.connectSecs,
      .positive "timeouts.request_secs" c.timeouts.requestSecs,
      .positive "esi.max_depth" c.composition.maxDepth]

def IsWebUrl (t : Text) : Prop := ∃ url, Url.parse t = .ok url ∧ url.IsWeb

/-- An empty name is no name: it is at fault by itself, and no default backend is found by it. -/
def Breaks (c : Config) : Rule → Prop
  | .bindAddress => SocketAddress.isValid c.listener.bindAddress = false
  | .name i b => b.name = [] ∨ ∃ earlier ∈ c.backends.take i, earlier.name = b.name
  | .baseUrl _ b => ¬ IsWebUrl b.baseUrl
  | .defaultBackend name => ¬ ∃ b ∈ c.backends, b.name ≠ [] ∧ b.name = name
  | .positive _ n => n = 0

instance (url : Url) : Decidable url.IsWeb := inferInstanceAs (Decidable (_ ∨ _))

instance (t : Text) : Decidable (IsWebUrl t) :=
  match h : Url.parse t with
  | .ok url => decidable_of_iff url.IsWeb (by simp [IsWebUrl, h])
  | .error e => isFalse (by simp [IsWebUrl, h])

instance (c : Config) : DecidablePred c.Breaks
  | .bindAddress => inferInstanceAs (Decidable (_ = false))
  | .name _ _ => inferInstanceAs (Decidable (_ ∨ _))
  | .baseUrl _ _ => inferInstanceAs (Decidable (¬ _))
  | .defaultBackend _ => inferInstanceAs (Decidable (¬ _))
  | .positive _ n => inferInstanceAs (Decidable (n = 0))

def report (c : Config) : Rule → ConfigProblem
  | .bindAddress =>
    { field := "listener.bind_address".toList
      message := quoted c.listener.bindAddress ++ " is not a socket address".toList }
  | .name i b =>
    { field := backendField i "name"
      message :=
        if b.name = [] then "must not be empty".toList
        else "duplicate backend ".toList ++ quoted b.name }
  | .baseUrl i b =>
    { field := backendField i "base_url"
      message :=
        match Url.parse b.baseUrl with
        | .ok url => "unsupported scheme ".toList ++ quoted url.scheme
        | .error e => quoted b.baseUrl ++ " is not a valid URL: ".toList ++ e.message }
  | .defaultBackend name =>
    { field := "default_backend".toList, message := "unknown backend ".toList ++ quoted name }
  | .positive field _ => { field := field.toList, message := "must be greater than 0".toList }

def found (c : Config) (r : Rule) : List ConfigProblem := if c.Breaks r then [c.report r] else []

variable {c : Config} {r : Rule}

theorem found_of_breaks (h : c.Breaks r) : c.found r = [c.report r] := if_pos h

theorem found_of_keeps (h : ¬ c.Breaks r) : c.found r = [] := if_neg h

theorem flatMap_found (rs : List Rule) :
    rs.flatMap c.found = (rs.filter c.Breaks).map c.report := by
  induction rs with
  | nil => rfl
  | cons r rs ih =>
    by_cases hr : c.Breaks r
    · rw [List.flatMap_cons, found_of_breaks hr, ih, List.filter_cons_of_pos (by simpa using hr)]
      rfl
    · rw [List.flatMap_cons, found_of_keeps hr, ih, List.filter_cons_of_neg (by simpa using hr)]
      rfl

theorem bindAddressProblems_eq : c.bindAddressProblems = c.found .bindAddress := by
  unfold bindAddressProblems
  by_cases hvalid : SocketAddress.isValid c.listener.bindAddress = true
  · have hkeeps : ¬ c.Breaks .bindAddress := fun hinvalid => Bool.false_ne_true (hinvalid.symm.trans hvalid)
    rw [if_pos hvalid, found_of_keeps hkeeps]
  · have hbreaks : c.Breaks .bindAddress := Bool.eq_false_iff.mpr hvalid
    rw [if_neg hvalid, found_of_breaks hbreaks]
    rfl

theorem report_name_empty {i : Nat} {b : BackendConfig} (h : b.name = []) :
    c.report (.name i b) =
      { field := backendField i "name", message := "must not be empty".toList } :=
  congrArg (ConfigProblem.mk _) (if_pos h)

theorem report_name_duplicate {i : Nat} {b : BackendConfig} (h : b.name ≠ []) :
    c.report (.name i b) =
      { field := backendField i "name"
        message := "duplicate backend ".toList ++ quoted b.name } :=
  congrArg (ConfigProblem.mk _) (if_neg h)

theorem nameProblems_eq {before after : List BackendConfig} {b : BackendConfig}
    (h : c.backends = before ++ b :: after) :
    nameProblems (before.map BackendConfig.name) before.length b.name =
      c.found (.name before.length b) := by
  have hearlier : c.backends.take before.length = before := by
    rw [h, List.take_left]
  have hbreaks : c.Breaks (.name before.length b) ↔
      b.name = [] ∨ b.name ∈ before.map BackendConfig.name := by
    simp only [Breaks, hearlier, List.mem_map]
  unfold nameProblems
  by_cases hempty : b.name = []
  · rw [found_of_breaks (hbreaks.mpr (.inl hempty)), report_name_empty hempty]
    exact if_pos (List.isEmpty_iff.mpr hempty)
  · rw [if_neg (mt List.isEmpty_iff.mp hempty)]
    by_cases hmem : b.name ∈ before.map BackendConfig.name
    · rw [found_of_breaks (hbreaks.mpr (.inr hmem)), report_name_duplicate hempty]
      exact if_pos (List.contains_iff_mem.mpr hmem)
    · rw [found_of_keeps (mt hbreaks.mp (not_or.mpr ⟨hempty, hmem⟩))]
      exact if_neg (mt List.contains_iff_mem.mp hmem)

theorem urlProblems_eq (i : Nat) (b : BackendConfig) :
    urlProblems i b.baseUrl = c.found (.baseUrl i b) := by
  have hweb (url : Url) : isWebScheme url.scheme = true ↔ url.IsWeb := by
    simp [isWebScheme, Url.IsWeb]
  have hreport : c.report (.baseUrl i b) =
      { field := backendField i "base_url"
        message :=
          match Url.parse b.baseUrl with
          | .ok url => "unsupported scheme ".toList ++ quoted url.scheme
          | .error e => quoted b.baseUrl ++ " is not a valid URL: ".toList ++ e.message } := rfl
  unfold urlProblems
  cases hparse : Url.parse b.baseUrl with
  | ok url =>
    by_cases hscheme : url.IsWeb
    · have hkeeps : ¬ c.Breaks (.baseUrl i b) := not_not.mpr ⟨url, hparse, hscheme⟩
      rw [found_of_keeps hkeeps]
      exact if_pos ((hweb url).mpr hscheme)
    · have hbreaks : c.Breaks (.baseUrl i b) := by
        rintro ⟨url', hurl, h⟩
        cases hparse.symm.trans hurl
        exact hscheme h
      simp only [found_of_breaks hbreaks, hreport, hparse]
      exact if_neg (mt (hweb url).mp hscheme)
  | error e =>
    have hbreaks : c.Breaks (.baseUrl i b) := by
      rintro ⟨url, hurl, -⟩
      cases hparse.symm.trans hurl
    simp only [found_of_breaks hbreaks, hreport, hparse]

theorem rulesFrom_cons (i : Nat) (b : BackendConfig) (bs : List BackendConfig) :
    rulesFrom i (b :: bs) = .name i b :: .baseUrl i b :: rulesFrom (i + 1) bs := by
  simp [rulesFrom, List.zipIdx_cons]

theorem backendProblems_eq (before rest : List BackendConfig) (h : c.backends = before ++ rest) :
    backendProblems (before.map BackendConfig.name) before.length rest =
      (rulesFrom before.length rest).flatMap c.found := by
  -- The names of the backends before the place are those that the scan has seen.
  induction rest generalizing before with
  | nil => rfl
  | cons b rest ih =>
    have hrest := ih (before ++ [b]) (by simp [h])
    rw [List.map_append, List.length_append] at hrest
    rw [backendProblems, nameProblems_eq h, urlProblems_eq (c := c), rulesFrom_cons, List.flatMap_cons,
      List.flatMap_cons, List.append_assoc]
    exact congrArg (fun found => _ ++ (_ ++ found)) hrest

theorem defaultBackendProblems_eq : c.defaultBackendProblems =
    (c.defaultBackend.toList.map .defaultBackend).flatMap c.found := by
  unfold defaultBackendProblems
  cases c.defaultBackend with
  | none => rfl
  | some name =>
    have hany : (c.backends.any fun b => !b.name.isEmpty && b.name == name) = true ↔
        ∃ b ∈ c.backends, b.name ≠ [] ∧ b.name = name := by
      simp
    simp only [Option.toList_some, List.map_cons, List.map_nil, List.flatMap_cons, List.flatMap_nil,
      List.append_nil]
    by_cases hname : ∃ b ∈ c.backends, b.name ≠ [] ∧ b.name = name
    · have hkeeps : ¬ c.Breaks (.defaultBackend name) := not_not.mpr hname
      rw [found_of_keeps hkeeps]
      exact if_pos (hany.mpr hname)
    · have hbreaks : c.Breaks (.defaultBackend name) := hname
      rw [found_of_breaks hbreaks]
      exact if_neg (mt hany.mp hname)

theorem zeroProblems_eq (field : String) (n : Nat) :
    zeroProblems field n = c.found (.positive field n) := by
  unfold zeroProblems
  by_cases hn : n = 0
  · have hbreaks : c.Breaks (.positive field n) := hn
    rw [found_of_breaks hbreaks]
    exact if_pos (beq_iff_eq.mpr hn)
  · have hkeeps : ¬ c.Breaks (.positive field n) := hn
    rw [found_of_keeps hkeeps]
    exact if_neg (mt beq_iff_eq.mp hn)

theorem problems_eq (c : Config) : c.problems = (c.rules.filter c.Breaks).map c.report := by
  have hbackends : backendProblems [] 0 c.backends = (rulesFrom 0 c.backends).flatMap c.found :=
    backendProblems_eq [] c.backends rfl
  rw [← flatMap_found]
  unfold problems
  rw [bindAddressProblems_eq, hbackends, defaultBackendProblems_eq, zeroProblems_eq (c := c),
    zeroProblems_eq (c := c), zeroProblems_eq (c := c), zeroProblems_eq (c := c)]
  simp only [rules, List.flatMap_append, List.flatMap_cons, List.flatMap_nil, List.cons_append,
    List.append_assoc, List.append_nil]

/-! ## Usable configurations -/

structure Valid (c : Config) : Prop where
  bindAddress : SocketAddress.isValid c.listener.bindAddress = true
  named : ∀ b ∈ c.backends, b.name ≠ []
  distinct : (c.backends.map BackendConfig.name).Nodup
  baseUrls : ∀ b ∈ c.backends, IsWebUrl b.baseUrl
  defaultBackend : ∀ name, c.defaultBackend = some name → ∃ b ∈ c.backends, b.name = name
  maxConnections : c.pool.maxConnections ≠ 0
  connectSecs : c.timeouts.connectSecs ≠ 0
  requestSecs : c.timeouts.requestSecs ≠ 0
  maxDepth : c.composition.maxDepth ≠ 0

theorem forall_rules_iff {p : Rule → Prop} : (∀ r ∈ c.rules, p r) ↔
    p .bindAddress ∧
    (∀ i b, c.backends[i]? = some b → p (.name i b) ∧ p (.baseUrl i b)) ∧
    (∀ name, c.defaultBackend = some name → p (.defaultBackend name)) ∧
    p (.positive "pool.max_connections" c.pool.maxConnections) ∧
    p (.positive "timeouts.connect_secs" c.timeouts.connectSecs) ∧
    p (.positive "timeouts.request_secs" c.timeouts.requestSecs) ∧
    p (.positive "esi.max_depth" c.composition.maxDepth) := by
  have hbackends : (∀ r ∈ rulesFrom 0 c.backends, p r) ↔
      ∀ i b, c.backends[i]? = some b → p (.name i b) ∧ p (.baseUrl i b) := by
    simp only [rulesFrom, List.mem_flatMap, List.mem_cons, List.not_mem_nil, or_false,
      forall_exists_index, and_imp, Prod.forall, List.mem_zipIdx_iff_getElem?]
    constructor
    · intro h i b hb
      exact ⟨h _ b i hb (.inl rfl), h _ b i hb (.inr rfl)⟩
    · rintro h r b i hb (rfl | rfl)
      · exact (h i b hb).1
      · exact (h i b hb).2
  have hdefault : (∀ r ∈ c.defaultBackend.toList.map Rule.defaultBackend, p r) ↔
      ∀ name, c.defaultBackend = some name → p (.defaultBackend name) := by
    simp
  rw [← hbackends, ← hdefault]
  simp only [rules, List.cons_append, List.forall_mem_cons, List.forall_mem_append, and_assoc]
  simp

/-- Names are distinct if none stands before a later one. -/
theorem distinct_iff {bs : List BackendConfig} : (bs.map BackendConfig.name).Nodup ↔
    ∀ i b, bs[i]? = some b → ¬ ∃ earlier ∈ bs.take i, earlier.name = b.name := by
  rw [List.nodup_iff_getElem?_ne_getElem?]
  simp only [List.length_map, List.getElem?_map]
  constructor
  · rintro h i b hb ⟨earlier, hmem, hname⟩
    obtain ⟨j, hj, rfl⟩ := List.mem_take_iff_getElem.mp hmem
    obtain ⟨hi, -⟩ := List.getElem?_eq_some_iff.mp hb
    refine h j i (by omega) hi ?_
    rw [hb, List.getElem?_eq_getElem (by omega), Option.map_some, Option.map_some, hname]
  · intro h i j hij hj heq
    rw [List.getElem?_eq_getElem hj, List.getElem?_eq_getElem (by omega), Option.map_some,
      Option.map_some, Option.some.injEq] at heq
    exact h j bs[j] (List.getElem?_eq_getElem hj)
      ⟨bs[i], List.mem_take_iff_getElem.mpr ⟨i, by omega, rfl⟩, heq⟩

theorem problems_eq_nil_iff : c.problems = [] ↔ c.Valid := by
  rw [problems_eq, List.map_eq_nil_iff, List.filter_eq_nil_iff]
  simp only [decide_eq_true_eq]
  rw [forall_rules_iff]
  constructor
  · rintro ⟨haddress, hbackends, hdefault, hconnections, hconnect, hrequest, hdepth⟩
    have hplace (b : BackendConfig) (hb : b ∈ c.backends) :
        ∃ i, ¬ c.Breaks (.name i b) ∧ ¬ c.Breaks (.baseUrl i b) := by
      obtain ⟨i, hi⟩ := List.getElem?_of_mem hb
      exact ⟨i, hbackends i b hi⟩
    refine ⟨Bool.ne_false_iff.mp haddress, ?_, ?_, ?_, ?_, hconnections, hconnect, hrequest, hdepth⟩
    · intro b hb
      obtain ⟨i, hname, -⟩ := hplace b hb
      exact (not_or.mp hname).1
    · exact distinct_iff.mpr fun i b hb => (not_or.mp (hbackends i b hb).1).2
    · intro b hb
      obtain ⟨i, -, hurl⟩ := hplace b hb
      exact not_not.mp hurl
    · intro name hname
      obtain ⟨b, hb, -, heq⟩ := not_not.mp (hdefault name hname)
      exact ⟨b, hb, heq⟩
  · intro h
    refine ⟨Bool.ne_false_iff.mpr h.bindAddress, ?_, ?_, h.maxConnections, h.connectSecs, h.requestSecs, h.maxDepth⟩
    · intro i b hi
      have hb : b ∈ c.backends := List.mem_of_getElem? hi
      exact ⟨not_or.mpr ⟨h.named b hb, distinct_iff.mp h.distinct i b hi⟩, not_not.mpr (h.baseUrls b hb)⟩
    · intro name hname
      obtain ⟨b, hb, rfl⟩ := h.defaultBackend name hname
      exact not_not.mpr ⟨b, hb, h.named b hb, rfl⟩

/-! ## Backends of a valid configuration -/

def provider? (b : BackendConfig) : Option (Text × Url) := (Url.parse b.baseUrl).toOption.map (b.name, ·)

theorem provider?_eq_some_iff {b : BackendConfig} {name : Text} {url : Url} :
    provider? b = some (name, url) ↔ b.name = name ∧ Url.parse b.baseUrl = .ok url := by
  unfold provider?
  cases Url.parse b.baseUrl with
  | ok found => simp [Except.toOption]
  | error e => simp [Except.toOption]

theorem providers_eq (c : Config) : c.backendMap.providers = .ofList (c.backends.filterMap provider?) :=
  congrArg Table.ofList (List.filterMap_map ..)

/-- No backend is lost where all URLs can be read. -/
theorem names_filterMap_provider? {bs : List BackendConfig} (h : ∀ b ∈ bs, IsWebUrl b.baseUrl) :
    (bs.filterMap provider?).map Prod.fst = bs.map BackendConfig.name := by
  induction bs with
  | nil => rfl
  | cons b bs ih =>
    obtain ⟨url, hurl, -⟩ := h b List.mem_cons_self
    rw [List.filterMap_cons_some (provider?_eq_some_iff.mpr ⟨rfl, hurl⟩), List.map_cons, List.map_cons,
      ih fun b hb => h b (List.mem_cons_of_mem _ hb)]

theorem Valid.entries (h : c.Valid) : c.backendMap.providers.entries = c.backends.filterMap provider? := by
  rw [providers_eq]
  refine Table.entries_ofList ?_
  rw [names_filterMap_provider? h.baseUrls]
  exact h.distinct

theorem Valid.size (h : c.Valid) : c.backendMap.providers.size = c.backends.length := by
  have hnames := congrArg List.length (names_filterMap_provider? h.baseUrls)
  rw [List.length_map, List.length_map] at hnames
  rw [Table.size, h.entries, hnames]

theorem Valid.get? (h : c.Valid) {b : BackendConfig} (hb : b ∈ c.backends) :
    ∃ url, Url.parse b.baseUrl = .ok url ∧ c.backendMap.get? b.name = some url := by
  obtain ⟨url, hurl, -⟩ := h.baseUrls b hb
  refine ⟨url, hurl, Table.get?_eq_some_iff.mpr ?_⟩
  rw [h.entries]
  exact List.mem_filterMap.mpr ⟨b, hb, provider?_eq_some_iff.mpr ⟨rfl, hurl⟩⟩

theorem Valid.defaultUrl? (h : c.Valid) :
    c.backendMap.defaultUrl?.isSome = c.defaultBackend.isSome := by
  have hbind : c.backendMap.defaultUrl? = c.defaultBackend.bind c.backendMap.get? := rfl
  rw [hbind]
  cases hname : c.defaultBackend with
  | none => rfl
  | some name =>
    obtain ⟨b, hb, rfl⟩ := h.defaultBackend name hname
    obtain ⟨url, -, hget⟩ := h.get? hb
    rw [Option.bind_some, hget]
    rfl

/-- A configuration is without problems exactly if it is valid, and its problems are otherwise those
of the rules that it breaks, one for each, in the order of the rules. If it is without problems, each
of its backends has an entry of its own, with its own URL, and there is the URL of a default backend
exactly if one is set. -/
theorem problems_exact (c : Config) :
    (c.problems = [] ↔ c.Valid) ∧
    c.problems = (c.rules.filter c.Breaks).map c.report ∧
    (c.problems = [] →
      c.backendMap.providers.size = c.backends.length ∧
      (∀ b ∈ c.backends, ∃ url, Url.parse b.baseUrl = .ok url ∧
        c.backendMap.get? b.name = some url) ∧
      c.backendMap.defaultUrl?.isSome = c.defaultBackend.isSome) := by
  refine ⟨problems_eq_nil_iff, problems_eq c, fun hnone => ?_⟩
  have hvalid := problems_eq_nil_iff.mp hnone
  exact ⟨hvalid.size, fun b => hvalid.get?, hvalid.defaultUrl?⟩

/-- Two backends, of which the second one is the default. -/
theorem problems_exact_shop :
    let c : Config := {
      backends := [{ name := "origin".toList, baseUrl := "http://127.0.0.1:3000".toList },
        { name := "shop".toList, baseUrl := "https://shop.local/base".toList }]
      defaultBackend := some "shop".toList }
    c.problems = [] ∧ c.backendMap.providers.size = 2 ∧ c.backendMap.defaultUrl?.isSome = true := by
  intro c
  have hnone : c.problems = [] := by decide +kernel
  obtain ⟨hsize, -, hdefault⟩ := (problems_exact c).2.2 hnone
  exact ⟨hnone, hsize, hdefault⟩

/-- The second of two backends with an empty name is not reported as a duplicate of the first, and a
default backend with that name is reported as unknown. -/
theorem empty_name_unknown :
    let c : Config := {
      backends := [{ name := [], baseUrl := "http://a".toList },
        { name := [], baseUrl := "http://b".toList }]
      defaultBackend := some [] }
    (∃ b ∈ c.backends, c.defaultBackend = some b.name) ∧
    ¬ (c.backends.map BackendConfig.name).Nodup ∧
    c.problems =
      [{ field := "backends[0].name".toList, message := "must not be empty".toList },
        { field := "backends[1].name".toList, message := "must not be empty".toList },
        { field := "default_backend".toList, message := "unknown backend ''".toList }] := by
  decide +kernel

end Config

end EdgeCompose
