import EdgeCompose.Gateway.Handler
import EdgeCompose.Proofs.Containment
import EdgeCompose.Proofs.Decoding
import EdgeCompose.Proofs.PageOrigin
import EdgeCompose.Proofs.Partition
import EdgeCompose.Proofs.Tags

/-!
Pages without markup. A body that has no marker in it reads as a text without markers, which is one
token of text and composes to itself. So the client gets the origin's body as it reads as UTF-8, which
is the body itself exactly if it is UTF-8 (`Gateway.handlePage_unmarked`).
-/

namespace EdgeCompose

open Program

/-! ## Texts without markers -/

namespace Markup

/-- What tags begin with, and comments that hide tags. -/
def markers : List Text := ["<esi:".toList, "</esi:".toList, "<!--esi".toList]

def Unmarked (t : Text) : Prop := ∀ m ∈ markers, ¬ m <:+: t

theorem Unmarked.tail {c : Char} {t : Text} (h : Unmarked (c :: t)) : Unmarked t :=
  fun m hm hin => h m hm (hin.trans (List.suffix_cons c t).isInfix)

theorem Unmarked.markerAt {t : Text} (h : Unmarked t) : markerAt false t = none := by
  rcases markerAt_cases false t with ⟨-, hstart | hend⟩ | ⟨-, hopening⟩ | ⟨-, hin, -⟩ | ⟨hnone, -⟩
  · exact (h _ (by simp [markers]) hstart.isInfix).elim
  · exact (h _ (by simp [markers]) hend.isInfix).elim
  · exact (h _ (by simp [markers]) hopening.isInfix).elim
  · cases hin
  · exact hnone

theorem Unmarked.splitText {t : Text} (h : Unmarked t) : splitText false t = (t, []) := by
  induction t with
  | nil => rfl
  | cons c t ih =>
    unfold Markup.splitText
    rw [h.markerAt, ih h.tail]
    rfl

/-- A text without markers is one token, or none if it is empty. -/
theorem Unmarked.scan {t : Text} (h : Unmarked t) :
    scan t = if t = [] then [] else [.text t] := by
  cases t with
  | nil => exact scan_nil
  | cons c rest =>
    unfold Markup.scan pieces
    rw [piecesFrom]
    split
    · rw [h.splitText, piecesFrom]
      rfl
    · next hopening => cases h.markerAt.symm.trans hopening
    · next hclosing => cases h.markerAt.symm.trans hclosing
    · next htag => cases h.markerAt.symm.trans htag

end Markup

namespace Renderer

/-- A text without markers composes to itself, and asks for nothing. -/
theorem render_unmarked (r : Renderer) {t : Text} (h : Markup.Unmarked t) :
    r.render t = .done (.ok t) := by
  have htolerant : Markup.Tolerant t := by
    unfold Markup.Tolerant
    rw [h.scan]
    split <;> simp [Markup.Token.IsTolerant]
  rw [render_filled htolerant, h.scan]
  split
  · next hempty =>
    rw [hempty]
    rfl
  · simp [filled, written]

end Renderer

/-! ## The client's page -/

namespace Gateway

def fetchPage (request : ClientRequest) (url : Url) (body : Bytes) : Program Response :=
  Fetch.fetch (originRequest request url body) { isPage := true, requestId := request.requestId? }

def UnmarkedBody (body : Bytes) : Prop := ∀ m ∈ Markup.markers, ¬ Utf8.encode m <:+: body

instance (body : Bytes) : Decidable (UnmarkedBody body) :=
  inferInstanceAs (Decidable (∀ _ ∈ _, _))

theorem UnmarkedBody.decode {body : Bytes} (h : UnmarkedBody body) :
    Markup.Unmarked (Utf8.decode body) := by
  intro m hm hin
  have hascii : ∀ m ∈ Markup.markers, (∀ c ∈ m, Utf8.IsAscii c) ∧ m ≠ [] := by
    simp [Markup.markers, Utf8.IsAscii]
  exact h m hm (Utf8.infix_of_decode (hascii m hm).1 (hascii m hm).2 hin)

/-- The answer to a client whose page is an origin's answer, with its body read and written again. -/
def reread (origin : Response) : Response :=
  Forwarding.clientResponse origin.status origin.headers (Utf8.encode (Utf8.decode origin.body))

/-- A page without markup reaches the client as it reads as UTF-8: invalid sequences are replaced,
and the body is the origin's own exactly if there are none. -/
theorem handlePage_unmarked {g : Gateway} {request : ClientRequest} {body : Bytes} {url : Url}
    (hmethod : request.method ≠ "HEAD".toList) (hurl : pageUrl? g.backends request = some url)
    (hsize : body.length ≤ g.maxBodySize) (w : World) :
    ((fetchPage request url body).run w).1 = .overflowed ∨
      ∃ origin w', (fetchPage request url body).run w = (.finished origin, w') ∧
        (origin.isSuccess = true → g.isParseable origin.contentType? = true →
          UnmarkedBody origin.body →
            (g.handlePage request body).run w =
              (.finished (reread origin), w'.count (.page .rendered origin.status))) ∧
        ((reread origin).body = origin.body ↔ ∃ t, origin.body = Utf8.encode t) := by
  have hfetchOnly : (fetchPage request url body).FetchOnly := Fetch.fetch_fetchOnly _ _
  rcases hfetchOnly.run_ends w with ⟨origin, w', hfetch⟩ | hover
  · refine .inr ⟨origin, w', hfetch, fun hsuccess hparseable hplain => ?_,
      Utf8.encode_decode_iff origin.body⟩
    have hcomposes : g.composes request.method origin = true := by
      have hnotHead : isHead request.method = false := by simpa [isHead] using hmethod
      simp [composes, hsuccess, hnotHead, hparseable]
    have hrender := (g.renderer request (some url)).render_unmarked hplain.decode
    unfold handlePage
    simp only [hurl, if_neg (Nat.not_lt.mpr hsize)]
    refine (run_bind hfetch).trans ?_
    simp only [hcomposes, if_true, Response.bodyText, hrender]
    rfl
  · exact .inl hover

def htmlPage (body : Bytes) : Response where
  status := 200
  headers := [(Response.contentTypeName, Utf8.encode "text/html".toList)]
  body := body

/-- A gateway before a backend that answers everything with one page. -/
def serving (body : Bytes) : Gateway where
  settings := {}
  parseable := ["text/html".toList]
  maxBodySize := 0
  backends := oneBackend (hostUrl "origin.local")
  world := { backend := fun _ _ => .ok (htmlPage body) }

/-- A word with an accent, in UTF-8 and in Latin-1. -/
def accented : Bytes := [0x63, 0x61, 0x66, 0xC3, 0xA9]

def accentedLatin : Bytes := [0x63, 0x61, 0x66, 0xE9]

theorem handlePage_unmarked_accented :
    (pageRequest "/").method ≠ "HEAD".toList ∧
      pageUrl? (serving accented).backends (pageRequest "/") = some (hostUrl "origin.local") ∧
      ∃ w', ((serving accented).handlePage (pageRequest "/") []).run (serving accented).world =
        (.finished (htmlPage accented), w') := by
  have hmethod : (pageRequest "/").method ≠ "HEAD".toList := by decide
  have hurl : pageUrl? (serving accented).backends (pageRequest "/") =
      some (hostUrl "origin.local") := by decide +kernel
  have horigin : ((fetchPage (pageRequest "/") (hostUrl "origin.local") []).run
      (serving accented).world).1 = .finished (htmlPage accented) := by decide +kernel
  have hsize : ([] : Bytes).length ≤ (serving accented).maxBodySize := Nat.zero_le _
  refine ⟨hmethod, hurl, ?_⟩
  rcases handlePage_unmarked hmethod hurl hsize (serving accented).world with
    hover | ⟨origin, w', hfetch, hpage, -⟩
  · cases horigin.symm.trans hover
  · rw [hfetch] at horigin
    cases horigin
    have hreread : reread (htmlPage accented) = htmlPage accented := by decide +kernel
    rw [hreread] at hpage
    exact ⟨_, hpage (by decide) (by decide +kernel) (by decide +kernel)⟩

/-- A page in Latin-1 does not reach the client as it is. -/
theorem latin_page_changed :
    UnmarkedBody accentedLatin ∧
      ∃ body, body ≠ accentedLatin ∧
        (((serving accentedLatin).handlePage (pageRequest "/") []).run
          (serving accentedLatin).world).1 = .finished (htmlPage body) :=
  ⟨by decide +kernel, [0x63, 0x61, 0x66, 0xEF, 0xBF, 0xBD], by decide, by decide +kernel⟩

end Gateway

end EdgeCompose
