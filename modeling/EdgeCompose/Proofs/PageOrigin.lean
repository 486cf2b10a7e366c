import EdgeCompose.Gateway.Handler

/-!
Where a page comes from. What a client asks for is joined with the URL of the default backend, as a
reference. A target without two slashes at its front stays on that backend. Behind two slashes it
names a host itself, and the page is fetched from there (`pageUrl?_origin`).
-/

namespace EdgeCompose

/-! ## Targets as references -/

namespace Target

/-- Characters that a URL neither strips nor passes over. -/
def Inked (t : Text) : Prop := ∀ c ∈ t, 0x20 < c.toNat

theorem inked_of_all {p : Char → Bool} (hp : ∀ c, p c = true → 0x20 < c.toNat) {t : Text}
    (h : t.all p = true) : Inked t := fun c hc => hp c (List.all_eq_true.mp h c hc)

theorem ink_of_pathChar (c : Char) (h : isPathChar c = true) : 0x20 < c.toNat := by
  simp only [isPathChar, Bool.or_eq_true, Bool.and_eq_true, decide_eq_true_eq, beq_iff_eq] at h
  omega

theorem ink_of_queryChar (c : Char) (h : isQueryChar c = true) : 0x20 < c.toNat := by
  simp only [isQueryChar, Bool.or_eq_true, Bool.and_eq_true, decide_eq_true_eq, beq_iff_eq] at h
  omega

def written (path : Text) (query : Option Text) : Text := path ++ (query.map ('?' :: ·)).getD []

/-- A path with its query is the text up to a fragment. -/
theorem written_of_pathAndQuery? {t path : Text} {query : Option Text}
    (h : pathAndQuery? t = some (path, query)) :
    written path query = t.takeWhile (· != '#') ∧ Inked (written path query) := by
  unfold pathAndQuery? at h
  simp only at h
  split at h
  · next before rest hsplit =>
    split at h
    · next hchars =>
      obtain ⟨rfl, rfl⟩ := Prod.mk.inj (Option.some.inj h)
      rw [Bool.and_eq_true] at hchars
      refine ⟨(Text.eq_of_splitOnce? hsplit).symm, ?_⟩
      intro c hc
      rcases List.mem_append.mp hc with hpath | hquery
      · exact inked_of_all ink_of_pathChar hchars.1 c hpath
      · rcases List.mem_cons.mp hquery with rfl | hquery
        · decide
        · exact inked_of_all ink_of_queryChar hchars.2 c hquery
    · cases h
  · split at h
    · next hchars =>
      obtain ⟨rfl, rfl⟩ := Prod.mk.inj (Option.some.inj h)
      refine ⟨List.append_nil _, ?_⟩
      simpa [written] using inked_of_all ink_of_pathChar hchars
    · cases h

/-- How a forwarded target may begin: as a path, as a query, or with the star. -/
def isForwardedLead (c : Char) : Bool := c == '/' || c == '?' || c == '*'

/-- What is forwarded of a target. -/
structure Forwarded (t : Text) : Prop where
  inked : Inked t
  lead : ∃ c rest, t = c :: rest ∧ isForwardedLead c = true

theorem forwarded_root : Forwarded ['/'] where
  inked := by simp [Inked]
  lead := ⟨'/', [], rfl, rfl⟩

theorem forwarded_of_written {target : Target} (hink : Inked (written target.path target.query))
    (hlead : ∀ c rest, written target.path target.query = c :: rest → isForwardedLead c = true) :
    Forwarded target.pathAndQuery := by
  unfold pathAndQuery
  simp only
  split
  · exact forwarded_root
  · next hne =>
    refine ⟨hink, ?_⟩
    cases hwritten : written target.path target.query with
    | nil => simp [show target.path ++ _ = [] from hwritten] at hne
    | cons c rest => exact ⟨c, rest, hwritten, hlead c rest hwritten⟩

private theorem lead_of_takeWhile {t rest : Text} {c : Char} {p : Char → Bool}
    (h : t.takeWhile p = c :: rest) : p c = true ∧ ∃ more, t = c :: more := by
  cases t with
  | nil => cases h
  | cons d t =>
    rw [List.takeWhile_cons] at h
    split at h
    · next hd =>
      obtain ⟨rfl, -⟩ := List.cons_eq_cons.mp h
      exact ⟨hd, t, rfl⟩
    · cases h

/-- Whatever target a client's text is, a path, an absolute one, an authority or the star. -/
theorem forwarded_of_parse? {text : Text} {target : Target} (h : parse? text = some target) :
    Forwarded target.pathAndQuery := by
  unfold parse? at h
  split at h
  · cases h
  split at h
  · cases h
  · obtain rfl := Option.some.inj h
    refine forwarded_of_written (by simp [written, Inked]) ?_
    intro c rest hwritten
    obtain ⟨rfl, -⟩ := List.cons_eq_cons.mp hwritten
    rfl
  · next text =>
    simp only [Option.map_eq_some_iff] at h
    obtain ⟨⟨path, query⟩, hpath, rfl⟩ := h
    obtain ⟨hwritten, hink⟩ := written_of_pathAndQuery? hpath
    refine forwarded_of_written hink ?_
    intro c rest hcut
    obtain ⟨-, more, hmore⟩ := lead_of_takeWhile (hwritten.symm.trans hcut)
    obtain ⟨rfl, -⟩ := List.cons_eq_cons.mp hmore
    rfl
  · simp only [Option.bind_eq_bind, Option.bind_eq_some_iff] at h
    obtain ⟨split?, -, h⟩ := h
    split at h
    · next scheme more' =>
      split at h
      · cases h
      simp only [Option.bind_eq_some_iff, Option.some.injEq] at h
      obtain ⟨⟨path, query⟩, hpath, rfl⟩ := h
      obtain ⟨hwritten, hink⟩ := written_of_pathAndQuery? hpath
      refine forwarded_of_written hink ?_
      intro c rest hcut
      obtain ⟨hmark, more, hmore⟩ := lead_of_takeWhile (hwritten.symm.trans hcut)
      have hend := List.head?_dropWhile_not (! isAuthorityEnd ·) more'
      rw [hmore] at hend
      simp only [List.head?_cons, isAuthorityEnd, Bool.not_eq_false', Bool.or_eq_true] at hend
      rcases hend with hlead | hhash
      · rcases hlead with hslash | hmark
        · simp only [isForwardedLead, hslash, Bool.true_or]
        · simp only [isForwardedLead, hmark, Bool.or_true, Bool.true_or]
      · simp [beq_iff_eq.mp hhash] at hmark
    · split at h
      · next hauthority =>
        obtain rfl := Option.some.inj h
        refine forwarded_of_written (by simp [written, Inked]) ?_
        intro c rest hwritten
        simp [written] at hwritten
      · cases h

end Target

/-! ## Joining a reference -/

namespace Url

open Target (Inked Forwarded)

def TwoSlashes (t : Text) : Prop :=
  ∃ a b rest, t = a :: b :: rest ∧ isAnySlash a = true ∧ isAnySlash b = true

theorem TwoSlashes.head {c : Char} {t : Text} (h : TwoSlashes (c :: t)) : isAnySlash c = true := by
  obtain ⟨a, b, rest, heq, ha, -⟩ := h
  rwa [(List.cons_eq_cons.mp heq).1]

theorem not_twoSlashes_single (c : Char) : ¬ TwoSlashes [c] := by
  rintro ⟨a, b, rest, heq, -⟩
  cases heq

theorem twoSlashes_cons_cons {c d : Char} {t : Text} :
    TwoSlashes (c :: d :: t) ↔ isAnySlash c = true ∧ isAnySlash d = true := by
  constructor
  · rintro ⟨a, b, rest, heq, ha, hb⟩
    obtain ⟨rfl, rfl, -⟩ := heq
    exact ⟨ha, hb⟩
  · rintro ⟨hc, hd⟩
    exact ⟨c, d, t, rfl, hc, hd⟩

theorem not_isIgnored_of_ink {c : Char} (h : 0x20 < c.toNat) : isIgnored c = false := by
  unfold isIgnored
  rw [Bool.or_eq_false_iff, Bool.or_eq_false_iff]
  refine ⟨⟨?_, ?_⟩, ?_⟩ <;> (rw [beq_eq_false_iff_ne]; rintro rfl; revert h; decide)

theorem dropWhile_of_inked {t : Text} {p : Char → Bool} (hp : ∀ c, 0x20 < c.toNat → p c = false)
    (h : Inked t) : t.dropWhile p = t := by
  cases t with
  | nil => rfl
  | cons c t => exact List.dropWhile_cons_of_neg (by simp [hp c (h c (by simp))])

theorem cleaned_of_inked {t : Text} (h : Inked t) : cleaned t = t := by
  have hblank (c : Char) (hc : 0x20 < c.toNat) : isSpaceOrControl c = false := by
    simpa [isSpaceOrControl] using hc
  have hreverse : Inked t.reverse := fun c hc => h c (List.mem_reverse.mp hc)
  rw [cleaned, Text.dropEndWhile, dropWhile_of_inked hblank h, dropWhile_of_inked hblank hreverse,
    List.reverse_reverse]

theorem ahead_of_inked {t : Text} (h : Inked t) : ahead t = t :=
  dropWhile_of_inked (fun _ => not_isIgnored_of_ink) h

theorem scheme?_of_lead {c : Char} {rest : Text} (h : Target.isForwardedLead c = true) :
    scheme? (c :: rest) = none := by
  simp only [Target.isForwardedLead, Bool.or_eq_true, beq_iff_eq] at h
  rcases h with (rfl | rfl) | rfl <;> rfl

theorem withMarks_origin (base : Url) (t : Text) :
    (base.withMarks t).scheme = base.scheme ∧ (base.withMarks t).authority = base.authority := by
  unfold withMarks
  split <;> exact ⟨rfl, rfl⟩

def IsWeb (base : Url) : Prop := base.scheme = "http".toList ∨ base.scheme = "https".toList

theorem kind_of_web {base : Url} (h : base.IsWeb) : SchemeKind.of base.scheme = .special := by
  rcases h with h | h <;> rw [h] <;> rfl

/-- Against a backend's URL a forwarded target is a relative reference. -/
theorem join_eq_relative {base url : Url} {t : Text} (hweb : base.IsWeb) (ht : Forwarded t)
    (h : base.join t = .ok url) : relative base t = .ok url := by
  obtain ⟨c, rest, rfl, hc⟩ := ht.lead
  have hhash : c ≠ '#' := by
    rintro rfl
    cases hc
  have hfile : (base.kind == .file) = false := by
    rw [kind, kind_of_web hweb]
    rfl
  simp only [join, read, cleaned_of_inked ht.inked, ahead_of_inked ht.inked, scheme?_of_lead hc,
    List.head?_cons, hfile] at h
  split at h
  · next heq => exact absurd (by simpa using heq) hhash
  split at h
  · cases h
  · exact h

/-- No host is read where a slash stands in its place. -/
theorem afterSlashes_of_slash {scheme t : Text} {c : Char}
    (hkind : SchemeKind.of scheme = .special) (hc : isAnySlash c = true) :
    afterSlashes scheme (c :: t) = .error .emptyHost := by
  have hslash : isSlash (SchemeKind.of scheme) c = true := by
    simpa [hkind, isSlash, isAnySlash, SchemeKind.isSpecial] using hc
  have htake : (c :: t).takeWhile (fun c => ! (isSlash (SchemeKind.of scheme) c || isPathEnd c)) =
      [] := by
    simp [hslash]
  have hdrop : (c :: t).dropWhile (fun c => ! (isSlash (SchemeKind.of scheme) c || isPathEnd c)) =
      c :: t := by
    simp [hslash]
  unfold afterSlashes
  simp only [htake, hdrop]
  simp only [visible, splitLastAt, hostAndPort, host, hkind, SchemeKind.isSpecial]
  rfl

/-- Where a host is read, no slash stands before it. -/
theorem afterSlashes_dropWhile {scheme t : Text} {u : Url}
    (hkind : SchemeKind.of scheme = .special) (ht : Inked t) (h : afterSlashes scheme t = .ok u) :
    afterSlashes scheme (t.dropWhile fun c => isAnySlash c || isIgnored c) = .ok u := by
  cases t with
  | nil => exact h
  | cons c t =>
    have hslash : isAnySlash c = false := by
      rw [← Bool.not_eq_true]
      intro hc
      rw [afterSlashes_of_slash hkind hc] at h
      cases h
    rwa [List.dropWhile_cons_of_neg (by simp [hslash, not_isIgnored_of_ink (ht c (by simp))])]

/-- A host is read with its scheme. -/
theorem afterSlashes_scheme {scheme t : Text} {u : Url} (h : afterSlashes scheme t = .ok u) :
    u.scheme = scheme := by
  unfold afterSlashes at h
  simp only [bind, Except.bind] at h
  split at h
  · cases h
  split at h
  · cases h
  split at h
  · cases h
  · obtain rfl := Except.ok.inj h
    rfl

/-- An absolute URL that names its host where a reference with two slashes does. -/
theorem parse_absolute {base : Url} {t : Text} (hweb : base.IsWeb) (ht : Inked t) :
    parse (base.scheme ++ ':' :: t) =
      afterSlashes base.scheme (t.dropWhile fun c => isAnySlash c || isIgnored c) := by
  have hlead : Inked (base.scheme ++ [':']) := by
    rcases hweb with heq | heq <;> simp [heq, Inked]
  have hink : Inked (base.scheme ++ ':' :: t) := by
    rw [List.append_cons]
    intro c hc
    exact (List.mem_append.mp hc).elim (hlead c) (ht c)
  have hscheme : scheme? (base.scheme ++ ':' :: t) = some (base.scheme, t) := by
    rcases hweb with heq | heq <;> rw [heq] <;> rfl
  simp only [parse, read, cleaned_of_inked hink, hscheme, afterScheme, kind_of_web hweb]
  rfl

/-- Whether or not the slashes behind the first two are dropped, what is read is the same. -/
theorem parse_of_afterSlashes {base url : Url} {c d : Char} {more : Text} (hweb : base.IsWeb)
    (ht : Inked (c :: d :: more)) (hc : isAnySlash c = true) (hd : isAnySlash d = true)
    (h : afterSlashes base.scheme more = .ok url ∨
      afterSlashes base.scheme (more.dropWhile fun c => isAnySlash c || isIgnored c) = .ok url) :
    parse (base.scheme ++ ':' :: c :: d :: more) = .ok url := by
  have hdrop : (c :: d :: more).dropWhile (fun c => isAnySlash c || isIgnored c) =
      more.dropWhile (fun c => isAnySlash c || isIgnored c) := by
    simp [hc, hd]
  have hmore : Inked more := fun e he => ht e (by simp [he])
  rw [parse_absolute hweb ht, hdrop]
  rcases h with h | h
  · exact afterSlashes_dropWhile (kind_of_web hweb) hmore h
  · exact h

/-- A forwarded target stays on the host of the base, unless it names one itself. -/
theorem relative_cases {base url : Url} {t : Text} (hweb : base.IsWeb) (ht : Forwarded t)
    (h : relative base t = .ok url) :
    (¬ TwoSlashes t ∧ url.scheme = base.scheme ∧ url.authority = base.authority) ∨
      TwoSlashes t ∧ parse (base.scheme ++ ':' :: t) = .ok url := by
  obtain ⟨c, rest, rfl, hc⟩ := ht.lead
  have hrest : Inked rest := fun d hd => ht.inked d (List.mem_cons_of_mem _ hd)
  simp only [relative, ahead_of_inked ht.inked] at h
  split at h
  · -- Only the query is the client's.
    next hend =>
    obtain rfl := Except.ok.inj h
    refine .inl ⟨fun htwo => ?_, withMarks_origin base _⟩
    have hslash := htwo.head
    simp only [isPathEnd, isAnySlash, Bool.or_eq_true, beq_iff_eq] at hend hslash
    rcases hslash with rfl | rfl <;> simp at hend
  split at h
  · next hslash =>
    unfold after? at h
    rw [ahead_of_inked hrest] at h
    cases rest with
    | nil =>
      obtain rfl := Except.ok.inj h
      exact .inl ⟨not_twoSlashes_single c, rfl, rfl⟩
    | cons d more =>
      cases hd : isAnySlash d with
      | true =>
        simp only [hd, if_true] at h
        refine .inr ⟨twoSlashes_cons_cons.mpr ⟨hslash, hd⟩, ?_⟩
        refine parse_of_afterSlashes hweb ht.inked hslash hd ?_
        split at h
        · exact .inl h
        · exact .inr h
      | false =>
        simp only [hd, Bool.false_eq_true, if_false] at h
        obtain rfl := Except.ok.inj h
        refine .inl ⟨?_, rfl, rfl⟩
        rw [twoSlashes_cons_cons, hd]
        simp
  · -- The star, which stands for a name beside the base's path.
    next hslash =>
    obtain rfl := Except.ok.inj h
    exact .inl ⟨fun htwo => hslash htwo.head, rfl, rfl⟩

end Url

/-! ## The page of a request -/

namespace Gateway

/-- A page is fetched from the default backend exactly if the client's target has no two slashes at
its front, or else names that very host behind them. With two slashes the page's URL is what the
target reads as when only the scheme is put before it. -/
theorem pageUrl?_origin {backends : Backends} {request : ClientRequest} {base url : Url}
    {text : Text} (hbase : backends.defaultUrl? = some base) (hweb : base.IsWeb)
    (htarget : Target.parse? text = some request.target)
    (hurl : pageUrl? backends request = some url) :
    url.scheme = base.scheme ∧
      (¬ Url.TwoSlashes request.target.pathAndQuery → url.authority = base.authority) ∧
      (Url.TwoSlashes request.target.pathAndQuery →
        Url.parse (base.scheme ++ ':' :: request.target.pathAndQuery) = .ok url) ∧
      (url.origin = base.origin ↔
        ¬ Url.TwoSlashes request.target.pathAndQuery ∨
          ∃ named, Url.parse (base.scheme ++ ':' :: request.target.pathAndQuery) = .ok named ∧
            named.origin = base.origin) := by
  have hforwarded := Target.forwarded_of_parse? htarget
  have hjoin : base.join request.target.pathAndQuery = .ok url := by
    rw [pageUrl?, hbase, Option.bind_some] at hurl
    cases hjoin : base.join request.target.pathAndQuery with
    | ok joined =>
      rw [hjoin] at hurl
      rw [← Option.some.inj hurl]
    | error e =>
      rw [hjoin] at hurl
      cases hurl
  rcases Url.relative_cases hweb hforwarded (Url.join_eq_relative hweb hforwarded hjoin) with
    ⟨hplain, hscheme, hauthority⟩ | ⟨htwo, hparse⟩
  · have horigin : url.origin = base.origin := by simp only [Url.origin, hscheme, hauthority]
    exact ⟨hscheme, fun _ => hauthority, fun h => absurd h hplain,
      fun _ => .inl hplain, fun _ => horigin⟩
  · have hscheme : url.scheme = base.scheme := by
      rw [Url.parse_absolute hweb hforwarded.inked] at hparse
      exact Url.afterSlashes_scheme hparse
    refine ⟨hscheme, fun h => absurd htwo h, fun _ => hparse, ?_⟩
    rw [hparse]
    simp [htwo]

def hostUrl (name : String) : Url :=
  { scheme := "http".toList
    authority := some { host := some (.domain name.toList) }
    path := ['/'] }

def oneBackend (url : Url) : Backends :=
  { providers := .ofList [("origin".toList, url)], default := some "origin".toList }

def pageRequest (path : String) : ClientRequest := { target := { path := path.toList } }

theorem pageUrl?_origin_path :
    ∃ url, pageUrl? (oneBackend (hostUrl "origin.local")) (pageRequest "/shop") = some url ∧
      url.origin = (hostUrl "origin.local").origin := by
  have htarget : Target.parse? "/shop".toList = some (pageRequest "/shop").target := by
    decide +kernel
  have hurl : pageUrl? (oneBackend (hostUrl "origin.local")) (pageRequest "/shop") =
      some { hostUrl "origin.local" with path := "/shop".toList } := by
    decide +kernel
  have hplain : ¬ Url.TwoSlashes (pageRequest "/shop").target.pathAndQuery := by
    intro htwo
    have hslash : Url.isAnySlash 's' = true :=
      (Url.twoSlashes_cons_cons.mp (show Url.TwoSlashes ('/' :: 's' :: "hop".toList) from htwo)).2
    cases hslash
  exact ⟨_, hurl, (pageUrl?_origin rfl (.inl rfl) htarget hurl).2.2.2.mpr (.inl hplain)⟩

/-- A client that writes two slashes is served from the host that it names. -/
theorem page_leaves_backend :
    ¬ ∀ (backends : Backends) (request : ClientRequest) (base url : Url) (text : Text),
      backends.defaultUrl? = some base → base.IsWeb →
      Target.parse? text = some request.target → pageUrl? backends request = some url →
      url.origin = base.origin := by
  intro h
  have htarget : Target.parse? "//evil.local/".toList =
      some (pageRequest "//evil.local/").target := by
    decide +kernel
  have hurl : pageUrl? (oneBackend (hostUrl "origin.local")) (pageRequest "//evil.local/") =
      some (hostUrl "evil.local") := by
    decide +kernel
  have hsame := h _ _ _ _ _ rfl (.inl rfl) htarget hurl
  revert hsame
  decide

end Gateway

end EdgeCompose
