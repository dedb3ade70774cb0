import LoopzToken.Lib.Percent

/-!
# Lib.Url

URLs as Go's `net/url` reads and writes them, as far as HTTP requests need it:
a fragment is cut off, then a query, the path is percent-decoded, and `RawPath`
keeps the text of a path that the default encoding would not give back.

The main result is about `escapedPath`, the path as a client sends it: it is read
as the decoded path, it holds no byte with a meaning of its own in a request
(`pathText_escapedPath`), and a server that parses it sends the same text again
(`PathText.again`).

Left out: user information and IPv6 literals in the authority, and references
without a rooted path, which no HTTP request line holds.
-/

namespace Lib.Url

open Percent

/-! ### Bytes -/

/-- The byte `/`. -/
def slash : UInt8 := 47

/-- The byte `?`. -/
def question : UInt8 := 63

/-- The byte `#`. -/
def hash : UInt8 := 35

def isAlpha (c : UInt8) : Bool :=
  (65 ≤ c.toNat && c.toNat ≤ 90) || (97 ≤ c.toNat && c.toNat ≤ 122)

def isDigit (c : UInt8) : Bool := 48 ≤ c.toNat && c.toNat ≤ 57

/-- `stringContainsCTLByte`, for one byte. -/
def isControl (c : UInt8) : Bool := c.toNat < 32 || c.toNat = 127

/-- `shouldEscape`, for paths. -/
def shouldEscape (c : UInt8) : Bool :=
  !(isAlpha c || isDigit c || (utf8 "-_.~$&+,/:;=@").contains c)

/-- `validEncoded`, for one byte of a path. -/
def validByte (c : UInt8) : Bool :=
  (utf8 "!$&'()*+,;=:@[]%").contains c || !shouldEscape c

/-! ### Parsing -/

/-- A parsed URL. -/
structure URL where
  scheme : Bytes
  host : Bytes
  path : Bytes
  rawPath : Bytes
  forceQuery : Bool
  rawQuery : Bytes
  deriving DecidableEq, Repr

/-- `getScheme`: the scheme and the rest, or an error when the scheme is missing. -/
def getScheme (rawURL : Bytes) : Option (Bytes × Bytes) :=
  let isSchemeByte := fun c => isAlpha c || isDigit c || (utf8 "+-.").contains c
  let scheme := rawURL.takeWhile isSchemeByte
  match scheme, rawURL.dropWhile isSchemeByte with
  | [], c :: _ => if c = 58 then none else some ([], rawURL)
  | first :: _, c :: rest => if c = 58 ∧ isAlpha first then some (scheme, rest) else some ([], rawURL)
  | _, [] => some ([], rawURL)

def isHostByte (c : UInt8) : Bool := isAlpha c || isDigit c || c = 45 || c = 46

/-- A host name and, after a colon, a port. -/
def validHost (host : Bytes) : Bool :=
  (cut 58 host).1 ≠ [] && (cut 58 host).1.all isHostByte && ((cut 58 host).2.getD []).all isDigit

/-- `setPath`: the decoded path, and its text where the default encoding differs. -/
def setPath (p : Bytes) : Option (Bytes × Bytes) :=
  (unescape p).map fun path => (path, if escape shouldEscape path = p then [] else p)

/-- The end of `parse`: the path `p` and what followed `?`, if anything did. -/
def withPath (scheme host p : Bytes) (query : Option Bytes) : Option URL :=
  (setPath p).map fun r =>
    { scheme := scheme, host := host, path := r.1, rawPath := r.2,
      forceQuery := query = some [], rawQuery := query.getD [] }

/-- `parse`, after the fragment was cut off. A request line holds no authority, so
`viaRequest` reads `//` as the start of a path. -/
def parse (viaRequest : Bool) (rawURL : Bytes) : Option URL :=
  if rawURL.any isControl then none
  else
    match getScheme rawURL with
    | none => none
    | some (scheme, rest) =>
      let p := (cut question rest).1
      let query := (cut question rest).2
      match p with
      | a :: b :: q =>
          if a ≠ slash then none
          else if b = slash ∧ (scheme ≠ [] ∨ viaRequest = false ∧ q.head? ≠ some slash) then
            let host := q.takeWhile (· ≠ slash)
            if validHost host then withPath scheme host (q.dropWhile (· ≠ slash)) query else none
          else withPath scheme [] p query
      | [a] => if a = slash then withPath scheme [] p query else none
      | [] => none

/-- `url.Parse`: a fragment must be well encoded, and is not sent. -/
def parseURL (rawURL : Bytes) : Option URL :=
  match unescape ((cut hash rawURL).2.getD []) with
  | none => none
  | some _ => parse false (cut hash rawURL).1

/-- `url.ParseRequestURI`. -/
def parseRequestURI (rawURL : Bytes) : Option URL := parse true rawURL

/-! ### Writing -/

/-- `URL.EscapedPath`: the text of the path. -/
def URL.escapedPath (u : URL) : Bytes :=
  if u.rawPath ≠ [] ∧ u.rawPath.all validByte ∧ unescape u.rawPath = some u.path then u.rawPath
  else if u.path = utf8 "*" then utf8 "*"
  else escape shouldEscape u.path

/-- `URL.RequestURI`. -/
def URL.requestURI (u : URL) : Bytes :=
  (if u.escapedPath = [] then [slash] else u.escapedPath) ++
    if u.forceQuery || u.rawQuery ≠ [] then question :: u.rawQuery else []

/-! ### The text of a path -/

theorem validByte_of_not_escaped {c : UInt8} (hc : shouldEscape c = false) :
    validByte c = true := by
  simp [validByte, hc]

theorem validByte_ne {c : UInt8} (hc : validByte c = true) :
    c ≠ question ∧ c ≠ 32 ∧ isControl c = false := by
  refine ⟨?_, ?_, Bool.eq_false_iff.mpr fun hctl => ?_⟩
  · intro heq
    subst heq
    exact absurd hc (by decide)
  · intro heq
    subst heq
    exact absurd hc (by decide)
  · have hall : ∀ n < 32, validByte (UInt8.ofNat n) = false := by decide
    simp only [isControl, Bool.or_eq_true, decide_eq_true_eq] at hctl
    rcases hctl with hlt | hdel
    · have := hall _ hlt
      rw [UInt8.ofNat_toNat, hc] at this
      cases this
    · obtain rfl : c = 127 := UInt8.toNat_inj.mp hdel
      exact absurd hc (by decide)

theorem validByte_of_hex {c : UInt8} (hc : (Hex.value c).isSome = true) : validByte c = true := by
  obtain ⟨n, hn⟩ := Option.isSome_iff_exists.mp hc
  obtain ⟨hlt, hd⟩ := Hex.value_iff.mp hn
  have hall : ∀ n < 16, validByte (Hex.lowerDigit n) = true ∧
      validByte (Hex.upperDigit n) = true := by decide
  rcases hd with rfl | rfl
  · exact (hall n hlt).1
  · exact (hall n hlt).2

theorem validByte_escape (s : Bytes) : ∀ c ∈ escape shouldEscape s, validByte c = true := by
  intro c hc
  rcases mem_escape hc with ⟨-, hesc⟩ | rfl | hhex
  · exact validByte_of_not_escaped hesc
  · decide
  · exact validByte_of_hex hhex

theorem reads_escapedPath (s : Bytes) : Reads (escape shouldEscape s) s :=
  reads_escape (by decide) s

/-- What is known of the text that stands for the decoded path `path` and was given
as `p`. -/
structure PathText (p path text : Bytes) : Prop where
  reads : Reads text path
  valid : ∀ c ∈ text, validByte c = true
  cases : text = p ∨ text = escape shouldEscape path

theorem withPath_eq_some {scheme host p : Bytes} {query : Option Bytes} {u : URL} :
    withPath scheme host p query = some u ↔ Reads p u.path ∧
      u = { scheme := scheme, host := host, path := u.path,
            rawPath := if escape shouldEscape u.path = p then [] else p,
            forceQuery := query = some [], rawQuery := query.getD [] } := by
  simp only [withPath, setPath, Option.map_map, Option.map_eq_some_iff, Function.comp_apply,
    unescape_iff]
  constructor
  · intro h
    obtain ⟨path, hpath, rfl⟩ := h
    exact ⟨hpath, rfl⟩
  · intro h
    obtain ⟨hpath, hu⟩ := h
    exact ⟨u.path, hpath, hu.symm⟩

/-- A rooted path is decoded to a rooted path. -/
theorem Reads.head_slash {s v : Bytes} (h : Reads s v) (hs : s.head? = some slash) :
    v.head? = some slash := by
  cases h with
  | nil => cases hs
  | plain => exact hs
  | coded => exact absurd (Option.some.inj hs) (by decide)

theorem escapedPath_cases {scheme host p : Bytes} {query : Option Bytes} {u : URL}
    (h : withPath scheme host p query = some u) (hroot : p.head? = some slash) :
    u.escapedPath =
      if escape shouldEscape u.path ≠ p ∧ p.all validByte then p
      else escape shouldEscape u.path := by
  obtain ⟨hpath, hu⟩ := withPath_eq_some.mp h
  have hstar : u.path ≠ utf8 "*" := by
    intro hs
    have := Reads.head_slash hpath hroot
    rw [hs] at this
    exact absurd this (by decide)
  have hp : p ≠ [] := by
    intro heq
    subst heq
    cases hroot
  have hraw : u.rawPath = if escape shouldEscape u.path = p then [] else p := by rw [hu]
  rw [URL.escapedPath, if_neg hstar, hraw, ← unescape_iff] at *
  by_cases hdef : escape shouldEscape u.path = p
  · simp [hdef]
  · simp [hdef, hp, hpath]

theorem pathText_escapedPath {scheme host p : Bytes} {query : Option Bytes} {u : URL}
    (h : withPath scheme host p query = some u) (hroot : p.head? = some slash) :
    PathText p u.path u.escapedPath := by
  rw [escapedPath_cases h hroot]
  split
  · rename_i hraw
    exact ⟨(withPath_eq_some.mp h).1, List.all_eq_true.mp hraw.2, .inl rfl⟩
  · exact ⟨reads_escapedPath _, validByte_escape _, .inr rfl⟩

theorem PathText.head {p path text : Bytes} (ht : PathText p path text)
    (hp : p.head? = some slash) (hpath : path.head? = some slash) :
    text.head? = some slash := by
  rcases ht.cases with rfl | rfl
  · exact hp
  · cases path with
    | nil => cases hpath
    | cons c path =>
        obtain rfl := Option.some.inj hpath
        rw [escape_cons_of_not (by decide)]
        rfl

/-- The text of a path stands for the same path, with the same text. -/
theorem PathText.again {p path text scheme host : Bytes} {query : Option Bytes} {u : URL}
    (ht : PathText p path text) (hroot : text.head? = some slash)
    (h : withPath scheme host text query = some u) : u.path = path ∧ u.escapedPath = text := by
  obtain rfl : u.path = path := (withPath_eq_some.mp h).1.unique ht.reads
  refine ⟨rfl, ?_⟩
  rw [escapedPath_cases h hroot]
  split
  · rfl
  · rename_i hno
    by_contra hne
    exact hno ⟨hne, List.all_eq_true.mpr ht.valid⟩

/-! ### Parsing what was written -/

theorem requestURI_eq {scheme host p : Bytes} {query : Option Bytes} {u : URL}
    (h : withPath scheme host p query = some u) (hne : u.escapedPath ≠ []) :
    u.requestURI = u.escapedPath ++ (query.elim [] (question :: ·)) := by
  obtain ⟨-, hu⟩ := withPath_eq_some.mp h
  have hforce : u.forceQuery = decide (query = some []) := by rw [hu]
  have hraw : u.rawQuery = query.getD [] := by rw [hu]
  rw [URL.requestURI, if_neg hne, hforce, hraw]
  rcases query with _ | _ | ⟨c, t⟩ <;> simp

/-- A rooted path and a query are parsed as such. -/
theorem parseRequestURI_path {text : Bytes} (query : Option Bytes)
    (hroot : text.head? = some slash) (hq : question ∉ text)
    (hctl : ∀ c ∈ text ++ query.elim [] (question :: ·), isControl c = false) :
    parseRequestURI (text ++ query.elim [] (question :: ·)) = withPath [] [] text query := by
  obtain ⟨rest, rfl⟩ := List.head?_eq_some_iff.mp hroot
  have hcut : cut question (slash :: rest ++ query.elim [] (question :: ·)) =
      (slash :: rest, query) := by
    cases query with
    | none => simpa using cut_of_not_mem hq
    | some t => exact cut_append_sep hq t
  have hscheme : ∀ s, getScheme (slash :: s) = some ([], slash :: s) := fun _ => rfl
  have hany : (slash :: rest ++ query.elim [] (question :: ·)).any isControl = false :=
    List.any_eq_false.mpr fun c hc => by simp [hctl c hc]
  rw [parseRequestURI, parse, hany, if_neg Bool.false_ne_true, List.cons_append, hscheme]
  simp only [← List.cons_append, hcut]
  cases rest with
  | nil => simp
  | cons b q => simp

/-- The bytes of a host have no meaning of their own in a URL. -/
theorem validHost_byte {host : Bytes} (h : validHost host = true) {c : UInt8} (hc : c ∈ host) :
    c ≠ slash ∧ c ≠ question ∧ c ≠ hash ∧ isControl c = false := by
  have hall : ∀ d, isHostByte d = true ∨ d = 58 →
      d ≠ slash ∧ d ≠ question ∧ d ≠ hash ∧ isControl d = false := by
    intro d hd
    simp only [isHostByte, isAlpha, isDigit, Bool.or_eq_true, Bool.and_eq_true,
      decide_eq_true_eq, slash, question, hash, isControl, Bool.or_eq_false_iff,
      decide_eq_false_iff_not, ← UInt8.toNat_inj, ne_eq, UInt8.reduceToNat] at hd ⊢
    omega
  simp only [validHost, Bool.and_eq_true, List.all_eq_true] at h
  refine hall c ?_
  rcases mem_cut (x := 58) hc with hname | hcolon | hport
  · exact .inl (h.1.2 c hname)
  · exact .inr hcolon
  · exact .inl (by simp [isHostByte, h.2 c hport])

theorem parse_http {host q : Bytes} (hhost : validHost host = true)
    (hroot : q.head? = some slash) (hctl : q.any isControl = false) :
    parse false (utf8 "http://" ++ host ++ q) =
      withPath (utf8 "http") host (cut question q).1 (cut question q).2 := by
  have hbyte := fun c => validHost_byte (c := c) hhost
  have hany : (utf8 "http://" ++ host ++ q).any isControl = false := by
    rw [List.any_append, List.any_append, hctl,
      show (utf8 "http://").any isControl = false by decide]
    simpa using fun c hc => (hbyte c hc).2.2.2
  have hscheme : ∀ s, getScheme (utf8 "http://" ++ s) = some (utf8 "http", slash :: slash :: s) :=
    fun _ => rfl
  -- no byte of the authority starts the query, so the cut falls into the path
  have hcut : cut question (slash :: slash :: (host ++ q)) =
      (slash :: slash :: (host ++ (cut question q).1), (cut question q).2) := by
    have hq : question ∉ slash :: slash :: host := by
      intro h
      simp only [List.mem_cons] at h
      rcases h with h | h | h
      · exact absurd h (by decide)
      · exact absurd h (by decide)
      · exact (hbyte _ h).2.1 rfl
    simpa using cut_append question hq q
  have hhead := cut_head hroot (show slash ≠ question by decide)
  rw [parse, hany, if_neg Bool.false_ne_true, List.append_assoc, hscheme]
  simp only [hcut]
  generalize (cut question q).1 = r at hhead ⊢
  have hslash : ∀ c ∈ host, decide (c ≠ slash) = true := fun c hc => by
    simpa using (hbyte c hc).1
  obtain ⟨r, rfl⟩ := List.head?_eq_some_iff.mp hhead
  rw [if_neg (by simp), if_pos ⟨trivial, .inl (by decide)⟩, List.takeWhile_append_of_pos hslash,
    List.dropWhile_append_of_pos hslash]
  simp [hhost]

/-- **A host and a rooted path are parsed as such**, once the fragment is gone. -/
theorem parseURL_http {host p : Bytes} (hhost : validHost host = true)
    (hroot : p.head? = some slash) {u : URL} (h : parseURL (utf8 "http://" ++ host ++ p) = some u) :
    withPath (utf8 "http") host (cut question (cut hash p).1).1
      (cut question (cut hash p).1).2 = some u ∧ ((cut hash p).1).any isControl = false := by
  have hbyte := fun c => validHost_byte (c := c) hhost
  have hhash : hash ∉ utf8 "http://" ++ host := by
    rw [List.mem_append]
    rintro (h | h)
    · exact absurd h (by decide)
    · exact (hbyte _ h).2.2.1 rfl
  rw [parseURL, cut_append hash hhash] at h
  split at h
  · cases h
  · have hctl : ((cut hash p).1).any isControl = false := by
      by_contra hno
      rw [parse, List.any_append, eq_true_of_ne_false hno, Bool.or_true, if_pos rfl] at h
      cases h
    rw [parse_http hhost (cut_head hroot (by decide)) hctl] at h
    exact ⟨h, hctl⟩

end Lib.Url
