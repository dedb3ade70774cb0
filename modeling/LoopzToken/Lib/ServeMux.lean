import Mathlib.Data.List.TakeWhile
import LoopzToken.Lib.Url

/-!
# Lib.ServeMux

The routing of Go's `net/http`: a request line, the cleaning of paths, patterns
with wildcards, and `ServeMux`, which takes a path apart at its slashes, decodes
each segment on its own and matches it against the patterns.

Matching is compared with the decoded path as a whole: what a wildcard matched is
the corresponding part of the decoded path (`matchPath_reads`), and a path put
together from encoded segments is matched segment by segment
(`matchPath_joinPath`).

The multiplexer here tries its patterns in order; `ServeMux` prefers the more
specific of two overlapping ones. The two agree when no two patterns overlap
(`Pattern.Disjoint`, `lookup_eq`). Patterns with a trailing slash or a remainder wildcard
are left out, and so are the limits a server sets on the size of a request, the method
`CONNECT`, whose paths are not cleaned, and the request URI `*`, which is answered with 400.
-/

namespace Lib.ServeMux

open Percent Url

/-! ### Patterns -/

inductive Segment
  | literal (s : Bytes)
  | wildcard (name : Bytes)
  deriving DecidableEq, Repr

structure Pattern where
  method : Bytes
  segments : List Segment
  deriving DecidableEq, Repr

/-- `pathUnescape`: a segment that is not well encoded stands for itself. -/
def pathUnescape (s : Bytes) : Bytes := (unescape s).getD s

def parseSegment (s : Bytes) : Segment :=
  if s.head? = some 123 ∧ s.getLast? = some 125 then .wildcard s.tail.dropLast
  else .literal (pathUnescape s)

/-- A method, a blank and a path. -/
def parsePattern (s : String) : Pattern where
  method := (cut 32 (utf8 s)).1
  segments := ((((cut 32 (utf8 s)).2.getD []).splitOn slash).tail).map parseSegment

/-! ### Paths -/

/-- The path with the given segments. -/
def joinPath (segs : List Bytes) : Bytes := segs.flatMap (slash :: ·)

/-- `path.Clean`, on the segments of a rooted path. -/
def cleanSegments (segs : List Bytes) : List Bytes :=
  segs.foldl (fun acc s =>
    if s = [] ∨ s = utf8 "." then acc else if s = utf8 ".." then acc.dropLast else acc ++ [s]) []

/-- `cleanPath`: a trailing slash is kept. -/
def cleanPath (p : Bytes) : Bytes :=
  let p := if p.head? = some slash then p else slash :: p
  let np := joinPath (cleanSegments (p.splitOn slash))
  if np = [] then [slash] else if p.getLast? = some slash then np ++ [slash] else np

/-- `firstSegment`: the first segment, decoded, and the rest. A trailing slash is
a segment of its own. -/
def firstSegment (path : Bytes) : Bytes × Bytes :=
  if path = [slash] then ([slash], [])
  else (pathUnescape (path.tail.takeWhile (· ≠ slash)), path.tail.dropWhile (· ≠ slash))

/-- `matchPath`, for one pattern: the values of its wildcards. -/
def matchPath : List Segment → Bytes → Option (List Bytes)
  | [], path => if path = [] then some [] else none
  | .literal s :: segs, path =>
      if path = [] then none
      else if (firstSegment path).1 = s then matchPath segs (firstSegment path).2 else none
  | .wildcard _ :: segs, path =>
      if path = [] ∨ (firstSegment path).1 = [slash] then none
      else (matchPath segs (firstSegment path).2).map ((firstSegment path).1 :: ·)

/-! ### Dispatch -/

/-- What the server answers, or which handler it calls with which path values. -/
inductive Response (H : Type)
  | badRequest
  | redirect (path : Bytes)
  | notFound
  | methodNotAllowed
  | handled (handler : H) (pathValues : List (Bytes × Bytes))
  deriving DecidableEq, Repr

section

variable {H : Type}

/-- The names of a pattern's wildcards. -/
def Pattern.names (pat : Pattern) : List Bytes :=
  pat.segments.filterMap fun seg => match seg with
    | .literal _ => none
    | .wildcard name => some name

/-- The path values when a pattern matches; `GET` patterns match `HEAD` too. -/
def Pattern.match? (pat : Pattern) (method path : Bytes) : Option (List (Bytes × Bytes)) :=
  if pat.method = method ∨ (pat.method = utf8 "GET" ∧ method = utf8 "HEAD") then
    (matchPath pat.segments path).map (pat.names.zip ·)
  else none

/-- The first pattern that matches. -/
def lookup (mux : List (Pattern × H)) (method path : Bytes) : Option (H × List (Bytes × Bytes)) :=
  mux.findSome? fun r => (r.1.match? method path).map (r.2, ·)

/-- `ServeMux.findHandler`, for all methods but `CONNECT`. -/
def findHandler (mux : List (Pattern × H)) (method escapedPath : Bytes) : Response H :=
  let path := cleanPath escapedPath
  if path ≠ escapedPath then .redirect path
  else
    match lookup mux method path with
    | some (handler, values) => .handled handler values
    | none =>
        if mux.any fun r => (matchPath r.1.segments path).isSome then .methodNotAllowed
        else .notFound

/-- The request line a client writes. -/
def requestLine (method : Bytes) (u : URL) : Option Bytes :=
  if u.requestURI.any isControl then none
  else some (method ++ 32 :: (u.requestURI ++ 32 :: utf8 "HTTP/1.1"))

/-- `HTTP/1.0` to `HTTP/1.9`. -/
def supportedProto (proto : Bytes) : Bool :=
  proto.dropLast = utf8 "HTTP/1." && proto.getLast?.any isDigit

/-- `readRequest` and `ServeMux.ServeHTTP`, on the first line of a request. -/
def serve (mux : List (Pattern × H)) (line : Bytes) : Response H :=
  match cut 32 line with
  | (method, some rest) =>
      match cut 32 rest with
      | (uri, some proto) =>
          if supportedProto proto then
            match parseRequestURI uri with
            | some u => findHandler mux method u.escapedPath
            | none => .badRequest
          else .badRequest
      | (_, none) => .badRequest
  | (_, none) => .badRequest

end

/-! ### Joined paths -/

@[simp] theorem joinPath_nil : joinPath [] = [] := rfl

@[simp] theorem joinPath_cons (s : Bytes) (segs : List Bytes) :
    joinPath (s :: segs) = slash :: (s ++ joinPath segs) := rfl

theorem joinPath_append (segs segs' : List Bytes) :
    joinPath (segs ++ segs') = joinPath segs ++ joinPath segs' := List.flatMap_append

/-- What follows a segment is nothing, or starts with a slash. -/
def Rooted (path : Bytes) : Prop := path = [] ∨ path.head? = some slash

theorem rooted_joinPath (segs : List Bytes) : Rooted (joinPath segs) := by
  cases segs with
  | nil => exact .inl rfl
  | cons s segs => exact .inr rfl

theorem rooted_dropWhile (s : Bytes) : Rooted (s.dropWhile (· ≠ slash)) := by
  induction s with
  | nil => exact .inl rfl
  | cons c s ih =>
      by_cases hc : c = slash
      · exact .inr (by simp [hc])
      · rw [List.dropWhile_cons_of_pos (by simpa using hc)]
        exact ih

/-- A segment is cut off where the next slash stands. -/
theorem firstSegment_append {s rest : Bytes} (hs : slash ∉ s) (hrest : Rooted rest)
    (hne : s ≠ [] ∨ rest ≠ []) :
    firstSegment (slash :: (s ++ rest)) = (pathUnescape s, rest) := by
  have hpos : ∀ c ∈ s, decide (c ≠ slash) = true := by
    intro c hc
    simp only [decide_eq_true_eq]
    intro heq
    subst heq
    exact hs hc
  have hone : slash :: (s ++ rest) ≠ [slash] := by
    intro h
    simp only [List.cons.injEq, true_and, List.append_eq_nil_iff] at h
    exact hne.elim (· h.1) (· h.2)
  rw [firstSegment, if_neg hone, List.tail_cons, List.takeWhile_append_of_pos hpos,
    List.dropWhile_append_of_pos hpos]
  rcases hrest with rfl | hrest
  · simp
  · obtain ⟨t, rfl⟩ := List.head?_eq_some_iff.mp hrest
    simp

/-- Take a rooted path apart at its first segment. -/
theorem Rooted.split {path : Bytes} (hroot : Rooted path) (hne : path ≠ [])
    (hone : path ≠ [slash]) :
    ∃ s rest, path = slash :: (s ++ rest) ∧ slash ∉ s ∧ Rooted rest ∧
      firstSegment path = (pathUnescape s, rest) := by
  obtain ⟨t, rfl⟩ := List.head?_eq_some_iff.mp (hroot.resolve_left hne)
  refine ⟨t.takeWhile (· ≠ slash), t.dropWhile (· ≠ slash), ?_, ?_, rooted_dropWhile t, ?_⟩
  · rw [List.takeWhile_append_dropWhile]
  · intro h
    simpa using List.mem_takeWhile_imp h
  · rw [firstSegment, if_neg hone, List.tail_cons]

/-- Reading a path reads its first segment. -/
theorem reads_segment {s rest v : Bytes} (hrest : Rooted rest) (h : Reads (s ++ rest) v) :
    ∃ x y, Reads s x ∧ Reads rest y ∧ v = x ++ y := by
  rcases hrest with rfl | hrest
  · exact ⟨v, [], by simpa using h, .nil, by simp⟩
  · obtain ⟨t, rfl⟩ := List.head?_eq_some_iff.mp hrest
    obtain ⟨x, y, hx, hy, rfl⟩ := h.split (by decide) (by decide)
    exact ⟨x, slash :: y, hx, .plain (by decide) hy, rfl⟩

theorem pathUnescape_eq {s v : Bytes} (h : Reads s v) : pathUnescape s = v := by
  rw [pathUnescape, unescape_iff.mpr h, Option.getD_some]

/-! ### Matching -/

/-- The segments with values for the wildcards. -/
def fill : List Segment → List Bytes → List Bytes
  | [], _ => []
  | .literal s :: segs, vs => s :: fill segs vs
  | .wildcard _ :: segs, [] => [] :: fill segs []
  | .wildcard _ :: segs, v :: vs => v :: fill segs vs

/-- The decoded text that a segment of a pattern lets through. -/
def Segment.Admits : Segment → Bytes → Prop
  | .literal s, text => text = s
  | .wildcard _, text => text ≠ [slash]

theorem matchPath_nil {path : Bytes} {vs : List Bytes} (h : matchPath [] path = some vs) :
    path = [] := by
  by_contra hne
  rw [matchPath, if_neg hne] at h
  cases h

/-- One segment of a match: its text is let through, and the values go on from there. -/
theorem matchPath_cons {seg : Segment} {segs : List Segment} {path : Bytes} {vs : List Bytes}
    (h : matchPath (seg :: segs) path = some vs) :
    path ≠ [] ∧ seg.Admits (firstSegment path).1 ∧
      ∃ vs', matchPath segs (firstSegment path).2 = some vs' ∧
        fill (seg :: segs) vs = (firstSegment path).1 :: fill segs vs' := by
  cases seg with
  | literal s =>
      rw [matchPath] at h
      split at h
      · cases h
      · rename_i hne
        split at h
        · rename_i hs
          exact ⟨hne, hs, vs, h, by rw [fill, hs]⟩
        · cases h
  | wildcard name =>
      rw [matchPath] at h
      split at h
      · cases h
      · rename_i hne
        obtain ⟨hne, hfirst⟩ := not_or.mp hne
        obtain ⟨vs', hvs, rfl⟩ := Option.map_eq_some_iff.mp h
        exact ⟨hne, hfirst, vs', hvs, rfl⟩

/-- **A match against the decoded path**: put back into the pattern, the values give
the decoded path, and no segment of the path holds a slash. -/
theorem matchPath_reads {segs : List Segment} (hlit : .literal [slash] ∉ segs)
    {path decoded : Bytes} {vs : List Bytes} (hroot : Rooted path) (hreads : Reads path decoded)
    (h : matchPath segs path = some vs) :
    decoded = joinPath (fill segs vs) ∧ path.count slash = segs.length := by
  induction segs generalizing path decoded vs with
  | nil =>
      obtain rfl := matchPath_nil h
      obtain rfl := hreads.unique .nil
      exact ⟨rfl, rfl⟩
  | cons seg segs ih =>
      obtain ⟨hseg, hlit⟩ := List.ne_and_not_mem_of_not_mem_cons hlit
      obtain ⟨hne, hadm, vs', hmatch, hfill⟩ := matchPath_cons h
      have hslash : path ≠ [slash] := by
        intro heq
        subst heq
        cases seg with
        | literal s => exact hseg (congrArg Segment.literal hadm)
        | wildcard name => exact hadm rfl
      obtain ⟨s, rest, rfl, hs, hrest, hfs⟩ := hroot.split hne hslash
      rw [hfs] at hmatch hfill
      -- the slash is read as itself, then the segment, then the rest
      cases hreads with
      | plain _ hr =>
          obtain ⟨x, y, hx, hy, rfl⟩ := reads_segment hrest hr
          obtain ⟨rfl, hcount⟩ := ih hlit hrest hy hmatch
          refine ⟨by rw [hfill, joinPath_cons, pathUnescape_eq hx], ?_⟩
          rw [List.count_cons_self, List.count_append, List.count_eq_zero_of_not_mem hs, hcount]
          simp

/-- The texts `texts` of the segments, and the values `vs` they give the wildcards. -/
inductive Fits : List Segment → List Bytes → List Bytes → Prop
  | nil : Fits [] [] []
  | literal {s : Bytes} {segs : List Segment} {texts vs : List Bytes} (hne : s ≠ [])
      (hs : slash ∉ s) (hp : percent ∉ s) (h : Fits segs texts vs) :
      Fits (.literal s :: segs) (s :: texts) vs
  | wildcard {name text v : Bytes} {segs : List Segment} {texts vs : List Bytes}
      (hne : text ≠ []) (hs : slash ∉ text) (hv : v ≠ [slash]) (hr : Reads text v)
      (h : Fits segs texts vs) : Fits (.wildcard name :: segs) (text :: texts) (v :: vs)

theorem Fits.literals {lits : List Bytes}
    (hlit : ∀ s ∈ lits, s ≠ [] ∧ slash ∉ s ∧ percent ∉ s) {segs : List Segment}
    {texts vs : List Bytes} (h : Fits segs texts vs) :
    Fits (lits.map .literal ++ segs) (lits ++ texts) vs := by
  induction lits with
  | nil => exact h
  | cons s lits ih =>
      obtain ⟨⟨hne, hs, hp⟩, hlit⟩ := List.forall_mem_cons.mp hlit
      exact .literal hne hs hp (ih hlit)

/-- **A path put together from encoded segments is matched.** -/
theorem matchPath_joinPath {segs : List Segment} {texts vs : List Bytes}
    (h : Fits segs texts vs) : matchPath segs (joinPath texts) = some vs := by
  induction h with
  | nil => rfl
  | @literal s segs texts vs hne hs hp h ih =>
      rw [joinPath_cons, matchPath, if_neg (by simp),
        firstSegment_append hs (rooted_joinPath texts) (.inl hne), pathUnescape_eq (.refl hp),
        if_pos rfl, ih]
  | @wildcard name text v segs texts vs hne hs hv hr h ih =>
      rw [joinPath_cons, matchPath, firstSegment_append hs (rooted_joinPath texts) (.inl hne),
        pathUnescape_eq hr, if_neg (by simp [hv]), ih, Option.map_some]

/-! ### Cleaning -/

theorem cleanSegments_eq {segs : List Bytes}
    (h : ∀ s ∈ segs, s ≠ [] ∧ s ≠ utf8 "." ∧ s ≠ utf8 "..") : cleanSegments segs = segs := by
  have hfold : ∀ acc, segs.foldl (fun acc s =>
      if s = [] ∨ s = utf8 "." then acc else if s = utf8 ".." then acc.dropLast
      else acc ++ [s]) acc = acc ++ segs := by
    induction segs with
    | nil => simp
    | cons s segs ih =>
        intro acc
        obtain ⟨⟨hne, hdot, hdots⟩, h⟩ := List.forall_mem_cons.mp h
        rw [List.foldl_cons, if_neg (not_or.mpr ⟨hne, hdot⟩), if_neg hdots, ih h]
        simp
  simpa [cleanSegments] using hfold []

theorem intercalate_slash (s : Bytes) (segs : List Bytes) :
    [slash].intercalate (s :: segs) = s ++ joinPath segs := by
  induction segs generalizing s with
  | nil => simp
  | cons t segs ih => rw [List.intercalate_cons_cons, ih, joinPath_cons]; simp

theorem splitOn_joinPath {segs : List Bytes} (h : ∀ s ∈ segs, slash ∉ s) :
    (joinPath segs).splitOn slash = [] :: segs := by
  rw [← List.nil_append (joinPath segs), ← intercalate_slash]
  exact List.splitOn_intercalate slash (by simpa using h) (by simp)

/-- A path without empty segments does not end in a slash. -/
theorem getLast?_joinPath {segs : List Bytes} (h : ∀ s ∈ segs, s ≠ [] ∧ slash ∉ s) :
    (joinPath segs).getLast? ≠ some slash := by
  induction segs with
  | nil => simp
  | cons s segs ih =>
      obtain ⟨⟨hne, hs⟩, h⟩ := List.forall_mem_cons.mp h
      cases segs with
      | nil =>
          rw [joinPath_cons, joinPath_nil, List.append_nil, List.getLast?_cons,
            List.getLast?_eq_some_getLast hne, Option.getD_some]
          exact fun hlast => hs (Option.some.inj hlast ▸ List.getLast_mem hne)
      | cons t segs =>
          rw [joinPath_cons, ← List.cons_append, List.getLast?_append_of_ne_nil _ (by simp)]
          exact ih h

/-- A path without empty and dot segments is clean. -/
theorem cleanPath_joinPath {segs : List Bytes} (hne : segs ≠ [])
    (h : ∀ s ∈ segs, s ≠ [] ∧ s ≠ utf8 "." ∧ s ≠ utf8 ".." ∧ slash ∉ s) :
    cleanPath (joinPath segs) = joinPath segs := by
  obtain ⟨s, segs, rfl⟩ := List.exists_cons_of_ne_nil hne
  have hsplit := splitOn_joinPath fun t ht => (h t ht).2.2.2
  have hclean := cleanSegments_eq fun t ht => ⟨(h t ht).1, (h t ht).2.1, (h t ht).2.2.1⟩
  have hlast := getLast?_joinPath fun t ht => ⟨(h t ht).1, (h t ht).2.2.2⟩
  have hnil : cleanSegments ([] :: s :: segs) = cleanSegments (s :: segs) := rfl
  rw [cleanPath, if_pos (show (joinPath (s :: segs)).head? = some slash from rfl)]
  simp only [hsplit, hnil, hclean, if_neg hlast]
  exact if_neg (by simp)

example : cleanPath (utf8 "/a/../b//./c/") = utf8 "/b/c/" := by decide +kernel

theorem escape_joinPath (segs : List Bytes) :
    escape shouldEscape (joinPath segs) = joinPath (segs.map (escape shouldEscape)) := by
  induction segs with
  | nil => rfl
  | cons s segs ih =>
      rw [joinPath_cons, escape_cons_of_not (by decide), escape_append, ih]
      rfl

/-! ### Lookup -/

variable {H : Type} {mux : List (Pattern × H)}

/-- Some path is matched by both. -/
def overlap : List Segment → List Segment → Bool
  | [], [] => true
  | .literal s :: ps, .literal t :: qs => s = t && overlap ps qs
  | _ :: ps, _ :: qs => overlap ps qs
  | _, _ => false

/-- No request is matched by both patterns. -/
def Pattern.Disjoint (p q : Pattern) : Prop :=
  p.method ≠ q.method ∨ overlap p.segments q.segments = false

instance (p q : Pattern) : Decidable (p.Disjoint q) := inferInstanceAs (Decidable (_ ∨ _))

theorem overlap_cons {seg seg' : Segment} {ps qs : List Segment} {text : Bytes}
    (h : seg.Admits text) (h' : seg'.Admits text) (hoverlap : overlap ps qs = true) :
    overlap (seg :: ps) (seg' :: qs) = true := by
  cases seg with
  | literal s =>
      cases seg' with
      | literal t =>
          have hst : s = t := h.symm.trans h'
          rw [overlap, hoverlap, hst]
          simp
      | wildcard name => exact hoverlap
  | wildcard name => exact hoverlap

/-- Two patterns that match one path overlap: they see the same segments. -/
theorem overlap_of_matchPath {ps qs : List Segment} {path : Bytes} {vs ws : List Bytes}
    (hp : matchPath ps path = some vs) (hq : matchPath qs path = some ws) :
    overlap ps qs = true := by
  induction ps generalizing qs path vs ws with
  | nil =>
      cases qs with
      | nil => rfl
      | cons seg qs => exact absurd (matchPath_nil hp) (matchPath_cons hq).1
  | cons seg ps ih =>
      obtain ⟨hne, hadm, vs', hps, -⟩ := matchPath_cons hp
      cases qs with
      | nil => exact absurd (matchPath_nil hq) hne
      | cons seg' qs =>
          obtain ⟨-, hadm', ws', hqs, -⟩ := matchPath_cons hq
          exact overlap_cons hadm hadm' (ih hps hqs)

theorem match?_eq_some {pat : Pattern} {method path : Bytes} {values : List (Bytes × Bytes)}
    (hget : method ≠ utf8 "HEAD") :
    pat.match? method path = some values ↔ pat.method = method ∧
      ∃ vs, matchPath pat.segments path = some vs ∧ pat.names.zip vs = values := by
  unfold Pattern.match?
  split
  · rename_i hm
    simp [hm.resolve_right fun h => hget h.2, Option.map_eq_some_iff]
  · rename_i hm
    simp [(not_or.mp hm).1]

/-- Where no two patterns overlap, the pattern that matches is the one that is found. -/
theorem lookup_eq (hdisj : mux.Pairwise fun r r' => r.1.Disjoint r'.1) {method path : Bytes}
    (hget : method ≠ utf8 "HEAD") {r : Pattern × H} (hr : r ∈ mux)
    {values : List (Bytes × Bytes)} (h : r.1.match? method path = some values) :
    lookup mux method path = some (r.2, values) := by
  induction mux with
  | nil => cases hr
  | cons r' mux ih =>
      obtain ⟨hhead, htail⟩ := List.pairwise_cons.mp hdisj
      rw [lookup, List.findSome?_cons]
      rcases List.mem_cons.mp hr with rfl | hr
      · rw [h]
        rfl
      · have hno : r'.1.match? method path = none := by
          by_contra hsome
          obtain ⟨values', h'⟩ := Option.ne_none_iff_exists'.mp hsome
          obtain ⟨hm, vs, hvs, -⟩ := (match?_eq_some hget).mp h
          obtain ⟨hm', vs', hvs', -⟩ := (match?_eq_some hget).mp h'
          rcases hhead r hr with hne | hno
          · exact hne (hm'.trans hm.symm)
          · rw [overlap_of_matchPath hvs' hvs] at hno
            cases hno
        rw [hno]
        exact ih htail hr

/-- A handler that is called belongs to a pattern that matches the path, which is clean. -/
theorem findHandler_handled {method text : Bytes} {handler : H}
    {values : List (Bytes × Bytes)} (h : findHandler mux method text = .handled handler values) :
    cleanPath text = text ∧ ∃ pat, (pat, handler) ∈ mux ∧ pat.match? method text = some values := by
  unfold findHandler at h
  by_cases hclean : cleanPath text = text
  · rw [hclean, if_neg (not_not.mpr rfl)] at h
    split at h
    · rename_i handler' values' hlook
      obtain ⟨rfl, rfl⟩ := Response.handled.inj h
      obtain ⟨r, hr, hval⟩ := List.exists_of_findSome?_eq_some hlook
      obtain ⟨values'', hmatch, heq⟩ := Option.map_eq_some_iff.mp hval
      obtain ⟨rfl, rfl⟩ := Prod.mk.inj heq
      exact ⟨hclean, r.1, hr, hmatch⟩
    · split at h <;> cases h
  · rw [if_pos hclean] at h
    cases h

/-! ### Requests -/

/-- A protocol version holds no blank. -/
theorem not_supportedProto {proto : Bytes} (h : (32 : UInt8) ∈ proto) :
    supportedProto proto = false := by
  refine Bool.eq_false_iff.mpr fun hs => ?_
  simp only [supportedProto, Bool.and_eq_true, decide_eq_true_eq, Option.any_eq_true] at hs
  obtain ⟨hinit, last, hlast, hdigit⟩ := hs
  rw [← List.dropLast_append_getLast? last hlast, hinit] at h
  rcases List.mem_append.mp h with h | h
  · exact absurd h (by decide)
  · obtain rfl := List.mem_singleton.mp h
    exact absurd hdigit (by decide)

/-- A written request line is taken apart at its blanks. A blank in the URI makes the
version unreadable. -/
theorem serve_line {method uri : Bytes} (hm : (32 : UInt8) ∉ method) :
    serve mux (method ++ 32 :: (uri ++ 32 :: utf8 "HTTP/1.1")) =
      if (32 : UInt8) ∈ uri then .badRequest
      else match parseRequestURI uri with
        | some u => findHandler mux method u.escapedPath
        | none => .badRequest := by
  rw [serve, cut_append_sep hm]
  by_cases hblank : (32 : UInt8) ∈ uri
  · simp only [cut_append_of_mem hblank, if_pos hblank]
    rw [not_supportedProto (by simp), if_neg Bool.false_ne_true]
  · simp only [cut_append_sep hblank, if_neg hblank]
    exact if_pos (by decide)

/-- **A request line arrives with the path its client wrote**, unless a blank in the
query spoils it. -/
theorem serve_requestLine {method scheme host p : Bytes} {query : Option Bytes} {u : URL}
    {line : Bytes} (hm : (32 : UInt8) ∉ method) (hu : withPath scheme host p query = some u)
    (hroot : p.head? = some slash) (h : requestLine method u = some line) :
    serve mux line =
      if (32 : UInt8) ∈ query.getD [] then .badRequest
      else findHandler mux method u.escapedPath := by
  have htext := pathText_escapedPath hu hroot
  have hvalid := fun c hc => validByte_ne (htext.valid c hc)
  have hhead := htext.head hroot (Reads.head_slash (withPath_eq_some.mp hu).1 hroot)
  have hne : u.escapedPath ≠ [] := by
    intro hnil
    rw [hnil] at hhead
    cases hhead
  rw [requestLine, requestURI_eq hu hne] at h
  split at h
  · cases h
  · rename_i hctl
    obtain rfl := Option.some.inj h
    -- the text of the path holds no blank, so one can only stand in the query
    have hblank : (32 : UInt8) ∈ u.escapedPath ++ query.elim [] (question :: ·) ↔
        (32 : UInt8) ∈ query.getD [] := by
      have hpath : (32 : UInt8) ∉ u.escapedPath := fun hmem => (hvalid _ hmem).2.1 rfl
      cases query with
      | none => simp [hpath]
      | some t => simp [hpath, question]
    obtain ⟨u', hu'⟩ : ∃ u', withPath [] [] u.escapedPath query = some u' :=
      ⟨_, by rw [withPath, setPath, unescape_iff.mpr htext.reads]; rfl⟩
    have huri := parseRequestURI_path query hhead
      (fun hq => (hvalid _ hq).1 rfl) fun c hc => by
        simpa using List.any_eq_false.mp (eq_false_of_ne_true hctl) c hc
    rw [serve_line hm, huri, hu']
    simp only [hblank, (htext.again hhead hu').2]

end Lib.ServeMux
