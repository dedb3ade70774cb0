import LoopzToken.Lib.Response
import LoopzToken.Lib.ServeMux
import LoopzToken.Lib.Split

/-!
# Lib.Redirect

Redirects between `ServeMux` and `http.Client` of Go 1.24. A path that is not clean is
answered with a 301 (a 307 in later versions), which the client follows with a `GET` without
a body.

`ServeMux` puts the text of the cleaned path into the new URL as if it were decoded, so
what was encoded before is encoded twice after. Writing keeps a clean path clean
(`cleanPath_escape`), so a client follows one redirect at most, and where it ends is said
in full by `follow_eq`.
-/

namespace Lib.Redirect

open Percent Url ServeMux

/-! ### The server -/

/-- `hexEscapeNonASCII`. -/
def hexEscapeNonASCII (s : Bytes) : Bytes :=
  s.flatMap fun c =>
    if 128 ≤ c.toNat then [percent, Hex.lowerDigit (c.toNat / 16), Hex.lowerDigit (c.toNat % 16)]
    else [c]

/-- The URL of a redirect: `ServeMux` writes the path and the query as a URL, and
`http.Redirect` cleans the path once more. -/
def redirectURL (path rawQuery : Bytes) : Bytes :=
  cleanPath (escape shouldEscape path) ++ if rawQuery = [] then [] else question :: rawQuery

/-- The `Location` of a redirect. -/
def location (path rawQuery : Bytes) : Bytes := hexEscapeNonASCII (redirectURL path rawQuery)

/-- `htmlEscape`. -/
def htmlEscape (s : Bytes) : Bytes :=
  s.flatMap fun c =>
    if c = 38 then utf8 "&amp;"
    else if c = 60 then utf8 "&lt;"
    else if c = 62 then utf8 "&gt;"
    else if c = 34 then utf8 "&#34;"
    else if c = 39 then utf8 "&#39;"
    else [c]

/-- `http.Redirect`, with a 301; only the answer to a `GET` has a body. -/
def redirect (method path rawQuery : Bytes) : List ResponseCall :=
  .writeHeader ⟨301, by decide⟩ ::
    if method = utf8 "GET" then
      [.write (utf8 "<a href=\"" ++ htmlEscape (redirectURL path rawQuery) ++
        utf8 "\">Moved Permanently</a>.\n\n")]
    else []

/-- `http.Error`. -/
def httpError (error : Bytes) (code : StatusCode) : List ResponseCall :=
  [.writeHeader code, .write (error ++ [10])]

/-- `http.NotFound`. -/
def notFound : List ResponseCall := httpError (utf8 "404 page not found") ⟨404, by decide⟩

/-- The handler that `ServeMux` puts in where only other methods have a handler. -/
def methodNotAllowed : List ResponseCall := httpError (utf8 "Method Not Allowed") ⟨405, by decide⟩

/-- The query of the URL in a request line. -/
def rawQuery (line : Bytes) : Bytes :=
  ((cut 32 line).2.bind fun rest => parseRequestURI (cut 32 rest).1).elim [] (·.rawQuery)

/-! ### The client -/

/-- One element of a path in `resolvePath`, with what was written so far and whether nothing
follows its slash yet. -/
def resolveStep (acc : Bytes × Bool) (elem : Bytes) : Bytes × Bool :=
  if elem = utf8 "." then (acc.1, false)
  else if elem = utf8 ".." then
    if slash ∈ acc.1.tail then
      (slash :: (acc.1.tail.reverse.dropWhile (· ≠ slash)).tail.reverse, acc.2)
    else ([slash], true)
  else (acc.1 ++ (if acc.2 then [] else [slash]) ++ elem, false)

/-- `resolvePath`, of a rooted or an empty path. -/
def resolvePath (full : Bytes) : Bytes :=
  if full = [] then []
  else
    let elems := full.splitOn slash
    let dst := (elems.foldl resolveStep ([slash], true)).1
    let dst := if elems.getLast? = some (utf8 ".") ∨ elems.getLast? = some (utf8 "..") then
      dst ++ [slash] else dst
    if dst.tail.head? = some slash then dst.tail else dst

/-- `URL.ResolveReference`, of a reference with a rooted path or with an authority. -/
def resolveReference (u ref : URL) : URL :=
  let r := (setPath (resolvePath ref.escapedPath)).getD (ref.path, ref.rawPath)
  { ref with
    scheme := if ref.scheme = [] then u.scheme else ref.scheme
    host := if ref.scheme = [] ∧ ref.host = [] then u.host else ref.host
    path := r.1
    rawPath := r.2 }

/-- A request as the client holds it. -/
structure Request (B : Type) where
  method : Bytes
  url : URL
  body : Option B

/-- `redirectBehavior`, for a 301: the method of the next request. -/
def redirectMethod (method : Bytes) : Bytes :=
  if method = utf8 "HEAD" then method else utf8 "GET"

/-- The request that follows a 301. -/
def Request.redirected {B : Type} (req : Request B) (loc : Bytes) : Option (Request B) :=
  (parseURL loc).map fun ref =>
    { method := redirectMethod req.method, url := resolveReference req.url ref, body := none }

/-- `Client.do`, which follows `n` redirects at most: the last request, and what the server
made of it. -/
def follow {H B : Type} (mux : List (Pattern × H)) :
    ℕ → Request B → Option (ServeMux.Response H × Request B)
  | n, req =>
      (requestLine req.method req.url).bind fun line =>
        match serve mux line with
        | .redirect path =>
            match n with
            | 0 => none
            | n + 1 => (req.redirected (location path (rawQuery line))).bind (follow mux n)
        | response => some (response, req)

/-! ### Clean paths -/

/-- A segment that cleaning keeps. -/
def Plain (s : Bytes) : Prop := s ≠ [] ∧ s ≠ utf8 "." ∧ s ≠ utf8 ".." ∧ slash ∉ s

/-- The paths that cleaning returns: all segments are kept, only the last one may be
empty. -/
def Clean (p : Bytes) : Prop :=
  ∃ segs last, (∀ s ∈ segs, Plain s) ∧ (last = [] ∨ Plain last) ∧ p = joinPath (segs ++ [last])

theorem cleanSegments_plain {segs : List Bytes} (h : ∀ s ∈ segs, slash ∉ s) :
    ∀ s ∈ cleanSegments segs, Plain s := by
  have hfold : ∀ acc : List Bytes, (∀ s ∈ acc, Plain s) → ∀ s ∈ segs.foldl (fun acc s =>
      if s = [] ∨ s = utf8 "." then acc else if s = utf8 ".." then acc.dropLast
      else acc ++ [s]) acc, Plain s := by
    induction segs with
    | nil => exact fun acc hacc => hacc
    | cons t segs ih =>
        intro acc hacc
        obtain ⟨ht, h⟩ := List.forall_mem_cons.mp h
        rw [List.foldl_cons]
        refine ih h _ ?_
        split_ifs with hskip hdots
        · exact hacc
        · exact fun s hs => hacc s (List.dropLast_subset _ hs)
        · obtain ⟨hne, hdot⟩ := not_or.mp hskip
          intro s hs
          rcases List.mem_append.mp hs with hs | hs
          · exact hacc s hs
          · obtain rfl := List.mem_singleton.mp hs
            exact ⟨hne, hdot, hdots, ht⟩
  exact hfold [] (by simp)

theorem clean_cleanPath (p : Bytes) : Clean (cleanPath p) := by
  rw [cleanPath]
  generalize (if p.head? = some slash then p else slash :: p) = q
  have hplain := cleanSegments_plain fun s (hs : s ∈ q.splitOn slash) => not_mem_of_mem_splitOn hs
  generalize cleanSegments (q.splitOn slash) = segs at hplain ⊢
  split_ifs with hnil htrailing
  · exact ⟨[], [], by simp, .inl rfl, rfl⟩
  · exact ⟨segs, [], hplain, .inl rfl, by rw [joinPath_append]; rfl⟩
  · have hne : segs ≠ [] := by
      intro heq
      subst heq
      exact hnil rfl
    refine ⟨segs.dropLast, segs.getLast hne, fun s hs => hplain s (List.dropLast_subset _ hs),
      .inr (hplain _ (List.getLast_mem hne)), ?_⟩
    rw [List.dropLast_append_getLast]

/-- The elements between the slashes of a clean path. -/
theorem splitOn_clean {segs : List Bytes} {last : Bytes} (h : ∀ s ∈ segs, Plain s)
    (hlast : last = [] ∨ Plain last) :
    (joinPath (segs ++ [last])).splitOn slash = [] :: (segs ++ [last]) := by
  refine splitOn_joinPath fun s hs => ?_
  rcases List.mem_append.mp hs with hs | hs
  · exact (h s hs).2.2.2
  · obtain rfl := List.mem_singleton.mp hs
    rcases hlast with rfl | hlast
    · simp
    · exact hlast.2.2.2

/-- Clean paths stay as they are. -/
theorem cleanPath_of_clean {p : Bytes} (h : Clean p) : cleanPath p = p := by
  obtain ⟨segs, last, hplain, hlast, rfl⟩ := h
  have hsplit := splitOn_clean hplain hlast
  rcases hlast with rfl | hlast
  · by_cases hnil : segs = []
    · subst hnil
      decide +kernel
    -- the empty element is dropped, and its slash is put back
    have hclean := cleanSegments_eq fun s hs =>
      ⟨(hplain s hs).1, (hplain s hs).2.1, (hplain s hs).2.2.1⟩
    have hempty : cleanSegments ([] :: (segs ++ [[]])) = segs := by
      conv_rhs => rw [← hclean]
      simp [cleanSegments, List.foldl_append]
    obtain ⟨s, segs, rfl⟩ := List.exists_cons_of_ne_nil hnil
    have hend : joinPath (s :: segs ++ [[]]) = joinPath (s :: segs) ++ [slash] := by
      rw [joinPath_append]
      rfl
    have hhead : (joinPath (s :: segs ++ [[]])).head? = some slash := rfl
    have hslash : (joinPath (s :: segs ++ [[]])).getLast? = some slash := by
      rw [hend, List.getLast?_concat]
    rw [cleanPath, if_pos hhead]
    simp only [hsplit, hempty, hslash, if_true]
    rw [if_neg (by simp), hend]
  · exact cleanPath_joinPath (by simp) fun s hs => by
      rcases List.mem_append.mp hs with hs | hs
      · exact hplain s hs
      · exact List.mem_singleton.mp hs ▸ hlast

/-! ### Clean paths, written -/

theorem plain_escape {s : Bytes} (h : Plain s) : Plain (escape shouldEscape s) := by
  obtain ⟨hne, hdot, hdots, hslash⟩ := h
  -- what is read as something else is something else
  have hother : ∀ t, percent ∉ t → s ≠ t → escape shouldEscape s ≠ t := by
    intro t ht hst heq
    exact hst ((heq ▸ reads_escapedPath s).unique (.refl ht))
  refine ⟨hother _ (by simp) hne, hother _ (by decide) hdot, hother _ (by decide) hdots, ?_⟩
  rw [← List.count_eq_zero, count_escape (by decide) (by decide) (by decide)]
  exact List.count_eq_zero.mpr hslash

/-- **Writing keeps a clean path clean.** -/
theorem Clean.escape {p : Bytes} (h : Clean p) : Clean (escape shouldEscape p) := by
  obtain ⟨segs, last, hplain, hlast, rfl⟩ := h
  refine ⟨segs.map (Percent.escape shouldEscape), Percent.escape shouldEscape last, ?_, ?_, ?_⟩
  · intro s hs
    obtain ⟨t, ht, rfl⟩ := List.mem_map.mp hs
    exact plain_escape (hplain t ht)
  · exact hlast.imp (fun hnil => by subst hnil; rfl) plain_escape
  · rw [escape_joinPath, List.map_append, List.map_singleton]

/-- A clean path is resolved to itself. -/
theorem Clean.resolvePath {p : Bytes} (h : Clean p) : resolvePath p = p := by
  obtain ⟨segs, last, hplain, hlast, rfl⟩ := h
  have hdots : ∀ s ∈ segs ++ [last], s ≠ utf8 "." ∧ s ≠ utf8 ".." := by
    intro s hs
    rcases List.mem_append.mp hs with hs | hs
    · exact ⟨(hplain s hs).2.1, (hplain s hs).2.2.1⟩
    · obtain rfl := List.mem_singleton.mp hs
      rcases hlast with rfl | hlast
      · decide
      · exact ⟨hlast.2.1, hlast.2.2.1⟩
  have hsplit := splitOn_clean hplain hlast
  have hne : segs ++ [last] ≠ [] := by simp
  generalize segs ++ [last] = elems at hdots hsplit hne
  have hfold : ∀ dst, (elems.foldl resolveStep (dst, false)).1 = dst ++ joinPath elems := by
    clear hsplit hne
    induction elems with
    | nil => simp
    | cons s elems ih =>
        intro dst
        obtain ⟨⟨hdot, hdotdot⟩, hdots⟩ := List.forall_mem_cons.mp hdots
        rw [List.foldl_cons, resolveStep, if_neg hdot, if_neg hdotdot,
          if_neg Bool.false_ne_true, ih hdots]
        simp
  have hfirst : resolveStep ([slash], true) [] = ([slash], false) := by decide
  obtain ⟨s, elems, rfl⟩ := List.exists_cons_of_ne_nil hne
  have hlast : ¬ (([] :: s :: elems : List Bytes).getLast? = some (utf8 ".") ∨
      ([] :: s :: elems : List Bytes).getLast? = some (utf8 "..")) := by
    rw [List.getLast?_cons_cons]
    rintro (heq | heq)
    · exact (hdots _ (List.mem_of_getLast? heq)).1 rfl
    · exact (hdots _ (List.mem_of_getLast? heq)).2 rfl
  rw [Redirect.resolvePath, if_neg (by simp), hsplit]
  dsimp only
  rw [if_neg hlast, List.foldl_cons, hfirst, hfold]
  simp

/-! ### The new URL -/

/-- An encoded path is stored as what it stands for. -/
theorem withPath_escape (scheme host t : Bytes) (query : Option Bytes) :
    withPath scheme host (escape shouldEscape t) query =
      some { scheme := scheme, host := host, path := t, rawPath := [],
             forceQuery := query = some [], rawQuery := query.getD [] } := by
  simp [withPath, setPath, unescape_iff.mpr (reads_escapedPath t)]

theorem escapedPath_escape {scheme host t q : Bytes} {force : Bool} (ht : t.head? = some slash) :
    URL.escapedPath { scheme := scheme, host := host, path := t, rawPath := [],
                      forceQuery := force, rawQuery := q } = escape shouldEscape t := by
  rw [URL.escapedPath, if_neg (by simp), if_neg]
  intro heq
  simp only at heq
  subst heq
  exact absurd ht (by decide)

/-- A clean rooted reference replaces the path and the query. -/
theorem resolveReference_clean (u : URL) {t q : Bytes} {force : Bool} (ht : Clean t) :
    resolveReference u { scheme := [], host := [], path := t, rawPath := [],
                         forceQuery := force, rawQuery := q } =
      { scheme := u.scheme, host := u.host, path := t, rawPath := [],
        forceQuery := force, rawQuery := q } := by
  have hroot : t.head? = some slash := by
    obtain ⟨segs, last, -, -, rfl⟩ := ht
    cases segs <;> rfl
  simp [resolveReference, escapedPath_escape hroot, ht.escape.resolvePath, setPath,
    unescape_iff.mpr (reads_escapedPath t)]

/-- A rooted path that does not start with two slashes, and a query, are parsed as such. -/
theorem parseURL_path {text : Bytes} (query : Option Bytes) (hroot : text.head? = some slash)
    (hhost : text.tail.head? ≠ some slash) (hq : question ∉ text)
    (hhash : hash ∉ text ++ query.elim [] (question :: ·))
    (hctl : ∀ c ∈ text ++ query.elim [] (question :: ·), isControl c = false) :
    parseURL (text ++ query.elim [] (question :: ·)) = withPath [] [] text query := by
  obtain ⟨rest, rfl⟩ := List.head?_eq_some_iff.mp hroot
  have hcut : cut question (slash :: rest ++ query.elim [] (question :: ·)) =
      (slash :: rest, query) := by
    cases query with
    | none => simpa using cut_of_not_mem hq
    | some t => exact cut_append_sep hq t
  have hscheme : ∀ s, getScheme (slash :: s) = some ([], slash :: s) := fun _ => rfl
  have hany : (slash :: rest ++ query.elim [] (question :: ·)).any isControl = false :=
    List.any_eq_false.mpr fun c hc => by simp [hctl c hc]
  have hfragment : unescape ((none : Option Bytes).getD []) = some [] := rfl
  rw [parseURL, cut_of_not_mem hhash]
  simp only [hfragment]
  rw [parse, hany, if_neg Bool.false_ne_true, List.cons_append, hscheme]
  simp only [← List.cons_append, hcut]
  cases rest with
  | nil => simp
  | cons b q =>
      have hb : b ≠ slash := fun heq => hhost (by rw [heq]; rfl)
      simp [hb]

theorem Clean.head {p : Bytes} (h : Clean p) :
    p.head? = some slash ∧ p.tail.head? ≠ some slash := by
  obtain ⟨segs, last, hplain, hlast, rfl⟩ := h
  have hfirst : ∀ s rest, Plain s → (s ++ rest : Bytes).head? ≠ some slash := by
    intro s rest hs heq
    obtain ⟨b, s, rfl⟩ := List.exists_cons_of_ne_nil hs.1
    exact hs.2.2.2 (by rw [Option.some.inj heq]; exact List.mem_cons_self ..)
  cases segs with
  | cons s segs => exact ⟨rfl, hfirst s _ (hplain s (List.mem_cons_self ..))⟩
  | nil =>
      refine ⟨rfl, ?_⟩
      rcases hlast with rfl | hlast
      · simp
      · exact hfirst last _ hlast

/-! ### The query -/

theorem hexEscapeNonASCII_append (s t : Bytes) :
    hexEscapeNonASCII (s ++ t) = hexEscapeNonASCII s ++ hexEscapeNonASCII t :=
  List.flatMap_append

/-- A byte that is written is a byte left alone, or part of a code. -/
theorem mem_hexEscapeNonASCII {c : UInt8} {s : Bytes} (h : c ∈ hexEscapeNonASCII s) :
    c ∈ s ∨ validByte c = true := by
  obtain ⟨d, hd, hc⟩ := List.mem_flatMap.mp h
  have hb := d.toNat_lt
  have hdigit : ∀ n < 16, validByte (Hex.lowerDigit n) = true := fun n hn =>
    validByte_of_hex (by rw [Hex.value_iff.mpr ⟨hn, .inl rfl⟩, Option.isSome_some])
  split at hc
  · simp only [List.mem_cons, List.not_mem_nil, or_false] at hc
    rcases hc with rfl | rfl | rfl
    · exact .inr (by decide)
    · exact .inr (hdigit _ (by omega))
    · exact .inr (hdigit _ (by omega))
  · exact .inl (List.mem_singleton.mp hc ▸ hd)

/-- The text of a path is ASCII. -/
theorem hexEscapeNonASCII_escape (t : Bytes) :
    hexEscapeNonASCII (escape shouldEscape t) = escape shouldEscape t := by
  have hascii : ∀ c ∈ escape shouldEscape t, ¬ 128 ≤ c.toNat := by
    intro c hc hle
    have hall : ∀ n < 128, validByte (UInt8.ofNat (128 + n)) = false := by decide
    have hb := c.toNat_lt
    have := hall (c.toNat - 128) (by omega)
    rw [Nat.add_sub_cancel' hle, UInt8.ofNat_toNat, validByte_escape t c hc] at this
    cases this
  generalize escape shouldEscape t = s at hascii
  induction s with
  | nil => rfl
  | cons c s ih =>
      obtain ⟨hc, hascii⟩ := List.forall_mem_cons.mp hascii
      show (if 128 ≤ c.toNat then _ else [c]) ++ hexEscapeNonASCII s = _
      rw [if_neg hc, ih hascii]
      rfl

/-- A query that can stand in a URL. -/
def QueryText (q : Bytes) : Prop := ∀ c ∈ q, isControl c = false ∧ c ≠ hash

theorem QueryText.hexEscape {q : Bytes} (h : QueryText q) : QueryText (hexEscapeNonASCII q) := by
  intro c hc
  rcases mem_hexEscapeNonASCII hc with hc | hc
  · exact h c hc
  · refine ⟨(validByte_ne hc).2.2, fun heq => ?_⟩
    subst heq
    exact absurd hc (by decide)

/-- **The client reads in the `Location` the path and the query that were put there**, the
query in ASCII. -/
theorem parseURL_location {t q : Bytes} (ht : Clean t) (hq : QueryText q) :
    parseURL (location t q) =
      some { scheme := [], host := [], path := t, rawPath := [], forceQuery := false,
             rawQuery := hexEscapeNonASCII q } := by
  have hvalid := validByte_escape t
  obtain ⟨hroot, hhost⟩ := ht.escape.head
  obtain ⟨query, hlocation, hnone, hsome⟩ : ∃ query : Option Bytes,
      location t q = escape shouldEscape t ++ query.elim [] (question :: ·) ∧
        query ≠ some [] ∧ query.getD [] = hexEscapeNonASCII q := by
    rw [location, redirectURL, cleanPath_of_clean ht.escape, hexEscapeNonASCII_append,
      hexEscapeNonASCII_escape]
    by_cases hnil : q = []
    · subst hnil
      exact ⟨none, rfl, by simp, rfl⟩
    · refine ⟨some (hexEscapeNonASCII q), ?_, ?_, rfl⟩
      · rw [if_neg hnil]
        rfl
      · obtain ⟨c, q, rfl⟩ := List.exists_cons_of_ne_nil hnil
        rw [ne_eq, Option.some.injEq, hexEscapeNonASCII, List.flatMap_cons]
        split <;> simp
  have hquery : QueryText (query.elim [] (question :: ·)) := by
    cases query with
    | none => simp [QueryText]
    | some s =>
        have hs : QueryText s := by
          rw [show s = hexEscapeNonASCII q from hsome]
          exact hq.hexEscape
        exact List.forall_mem_cons.mpr ⟨by decide, hs⟩
  have hpath : QueryText (escape shouldEscape t) := fun c hc =>
    ⟨(validByte_ne (hvalid c hc)).2.2, fun heq => absurd (heq ▸ hvalid c hc) (by decide)⟩
  have hall : QueryText (escape shouldEscape t ++ query.elim [] (question :: ·)) :=
    List.forall_mem_append.mpr ⟨hpath, hquery⟩
  rw [hlocation, parseURL_path query hroot hhost (fun hmem => (validByte_ne (hvalid _ hmem)).1 rfl)
    (fun hmem => (hall _ hmem).2 rfl) fun c hc => (hall c hc).1, withPath_escape, hsome]
  simp [hnone]

/-! ### Following -/

section

variable {H B : Type} {mux : List (Pattern × H)}

/-- A request can be written, and the server finds its query, unless a blank spoils it. -/
theorem exists_requestLine {method scheme host p : Bytes} {query : Option Bytes} {u : URL}
    (hm : (32 : UInt8) ∉ method) (hu : withPath scheme host p query = some u)
    (hroot : p.head? = some slash) (hq : QueryText (query.getD [])) :
    ∃ line, requestLine method u = some line ∧
      ((32 : UInt8) ∉ query.getD [] → rawQuery line = query.getD []) := by
  have htext := pathText_escapedPath hu hroot
  have hvalid := fun c hc => validByte_ne (htext.valid c hc)
  have hhead := htext.head hroot (Reads.head_slash (withPath_eq_some.mp hu).1 hroot)
  have hne : u.escapedPath ≠ [] := by
    intro hnil
    rw [hnil] at hhead
    cases hhead
  have huri := requestURI_eq hu hne
  have hquery : ∀ c ∈ query.elim [] (question :: ·), isControl c = false := by
    cases query with
    | none => simp
    | some s => exact List.forall_mem_cons.mpr ⟨by decide, fun c hc => (hq c hc).1⟩
  have hctl : ∀ c ∈ u.requestURI, isControl c = false := by
    rw [huri]
    exact List.forall_mem_append.mpr ⟨fun c hc => (hvalid c hc).2.2, hquery⟩
  refine ⟨_, by rw [requestLine, if_neg (by simpa using hctl)], fun hblank => ?_⟩
  have hspace : (32 : UInt8) ∉ u.requestURI := by
    rw [huri, List.mem_append, not_or]
    refine ⟨fun hmem => (hvalid _ hmem).2.1 rfl, ?_⟩
    cases query with
    | none => simp
    | some s => exact List.not_mem_cons_of_ne_of_not_mem (by decide) hblank
  obtain ⟨u', hu'⟩ : ∃ u', withPath [] [] u.escapedPath query = some u' :=
    ⟨_, by rw [withPath, setPath, unescape_iff.mpr htext.reads]; rfl⟩
  rw [rawQuery, cut_append_sep hm, Option.bind_some, cut_append_sep hspace, huri,
    parseRequestURI_path query hhead (fun hmem => (hvalid _ hmem).1 rfl) (huri ▸ hctl), hu']
  rw [(withPath_eq_some.mp hu').2]
  rfl

/-- A clean path is not redirected. -/
theorem findHandler_ne_redirect (mux : List (Pattern × H)) (method : Bytes) {text : Bytes}
    (h : cleanPath text = text) (path : Bytes) : findHandler mux method text ≠ .redirect path := by
  rw [findHandler]
  simp only [h, ne_eq, not_true_eq_false, if_false]
  split
  · simp
  · split <;> simp

/-- The response to a request that is not redirected is the last one. -/
theorem follow_of_serve {req : Request B} {line : Bytes} {response : ServeMux.Response H} (n : ℕ)
    (hline : requestLine req.method req.url = some line) (hserve : serve mux line = response)
    (hfinal : ∀ path, response ≠ .redirect path) : follow mux n req = some (response, req) := by
  unfold follow
  rw [hline, Option.bind_some, hserve]
  cases response with
  | redirect path => exact absurd rfl (hfinal path)
  | _ => rfl

/-- What is asked for after a redirect. -/
def Request.clean (req : Request B) : Request B where
  method := redirectMethod req.method
  url := { req.url with
    path := cleanPath req.url.escapedPath
    rawPath := []
    forceQuery := false
    rawQuery := hexEscapeNonASCII req.url.rawQuery }
  body := none

theorem Request.redirected_eq {req : Request B} (hq : QueryText req.url.rawQuery) :
    req.redirected (location (cleanPath req.url.escapedPath) req.url.rawQuery) =
      some req.clean := by
  rw [Request.redirected, parseURL_location (clean_cleanPath _) hq, Option.map_some,
    resolveReference_clean _ (clean_cleanPath _)]
  rfl

/-- The new URL, as one that was parsed. -/
theorem Request.clean_url (req : Request B) :
    ∃ query, withPath req.url.scheme req.url.host
        (escape shouldEscape (cleanPath req.url.escapedPath)) query = some req.clean.url ∧
      query.getD [] = hexEscapeNonASCII req.url.rawQuery := by
  refine ⟨if hexEscapeNonASCII req.url.rawQuery = [] then none
    else some (hexEscapeNonASCII req.url.rawQuery), ?_, ?_⟩
  · rw [withPath_escape]
    split_ifs with hnil <;> simp [Request.clean, hnil]
  · split_ifs with hnil <;> simp [hnil]

/-- The second request is the last one. -/
theorem follow_clean {req : Request B} (hm : (32 : UInt8) ∉ req.method)
    (hq : QueryText req.url.rawQuery) (hblank : (32 : UInt8) ∉ req.url.rawQuery) (n : ℕ) :
    follow mux n req.clean = some (findHandler mux (redirectMethod req.method)
      (escape shouldEscape (cleanPath req.url.escapedPath)), req.clean) := by
  have hclean := clean_cleanPath req.url.escapedPath
  obtain ⟨query, hu, hquery⟩ := req.clean_url
  have hm' : (32 : UInt8) ∉ req.clean.method := by
    show (32 : UInt8) ∉ redirectMethod req.method
    unfold redirectMethod
    split_ifs
    · exact hm
    · decide
  have hblank' : (32 : UInt8) ∉ query.getD [] := by
    rw [hquery]
    intro hmem
    rcases mem_hexEscapeNonASCII hmem with hmem | hvalid
    · exact hblank hmem
    · exact absurd hvalid (by decide)
  have hroot := hclean.escape.head.1
  obtain ⟨line, hline, -⟩ := exists_requestLine hm' hu hroot (hquery ▸ hq.hexEscape)
  have hserve : serve mux line = _ := serve_requestLine hm' hu hroot hline
  have htext : req.clean.url.escapedPath =
      escape shouldEscape (cleanPath req.url.escapedPath) := escapedPath_escape hclean.head.1
  rw [if_neg hblank', htext] at hserve
  exact follow_of_serve n hline hserve
    (findHandler_ne_redirect _ _ (cleanPath_of_clean hclean.escape))

/-- A path that is not clean is answered with a redirect to the clean one, with the query. -/
theorem serve_redirect (mux : List (Pattern × H)) {method scheme host p : Bytes}
    {query : Option Bytes} {u : URL} (hm : (32 : UInt8) ∉ method)
    (hu : withPath scheme host p query = some u) (hroot : p.head? = some slash)
    (hq : QueryText u.rawQuery) (hblank : (32 : UInt8) ∉ u.rawQuery)
    (hclean : cleanPath u.escapedPath ≠ u.escapedPath) :
    ∃ line, requestLine method u = some line ∧ rawQuery line = u.rawQuery ∧
      serve mux line = .redirect (cleanPath u.escapedPath) := by
  have hquery : query.getD [] = u.rawQuery := by rw [(withPath_eq_some.mp hu).2]
  obtain ⟨line, hline, hraw⟩ := exists_requestLine hm hu hroot (hquery ▸ hq)
  rw [hquery] at hraw
  refine ⟨line, hline, hraw hblank, ?_⟩
  rw [serve_requestLine hm hu hroot hline, hquery, if_neg hblank, findHandler]
  exact if_pos hclean

/-- **Where a request ends.** A blank in the query spoils it, a clean path is routed as it
is, and any other path is asked for again, clean and encoded once more. There is no second
redirect. -/
theorem follow_eq (req : Request B) {scheme host p : Bytes} {query : Option Bytes}
    (hu : withPath scheme host p query = some req.url) (hroot : p.head? = some slash)
    (hm : (32 : UInt8) ∉ req.method) (hq : QueryText req.url.rawQuery) (n : ℕ) :
    follow mux (n + 1) req = some (
      if (32 : UInt8) ∈ req.url.rawQuery then (.badRequest, req)
      else if cleanPath req.url.escapedPath = req.url.escapedPath then
        (findHandler mux req.method req.url.escapedPath, req)
      else (findHandler mux (redirectMethod req.method)
        (escape shouldEscape (cleanPath req.url.escapedPath)), req.clean)) := by
  have hquery : query.getD [] = req.url.rawQuery := by rw [(withPath_eq_some.mp hu).2]
  obtain ⟨line, hline, -⟩ := exists_requestLine hm hu hroot (hquery ▸ hq)
  have hserve : serve mux line = _ := serve_requestLine hm hu hroot hline
  rw [hquery] at hserve
  split_ifs with hblank hclean
  · rw [if_pos hblank] at hserve
    exact follow_of_serve _ hline hserve (by simp)
  · rw [if_neg hblank] at hserve
    exact follow_of_serve _ hline hserve (findHandler_ne_redirect _ _ hclean)
  · obtain ⟨line, hline, hraw, hserve⟩ := serve_redirect mux hm hu hroot hq hblank hclean
    unfold follow
    rw [hline, Option.bind_some, hserve]
    dsimp only
    rw [hraw, Request.redirected_eq hq, Option.bind_some, follow_clean hm hq hblank]

end

end Lib.Redirect
