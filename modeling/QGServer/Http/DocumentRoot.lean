-- SUMMARY: The paths that the file handler opens, and when they stay below the document root.
import Mathlib.Data.List.Basic
import QGServer.Http.Server

/-!
# The document root

`defaultHandleRequest` opens the file whose path is the root, `.`, followed by the
path of the request. `resolve` walks along the segments of a path; it fails where
`..` would leave the root.
-/

namespace QGServer

/-! ## Paths -/

/-- The segments of a path. -/
def segments (path : Bytes) : List Bytes := path.splitOn (byte '/')

/-- A segment that stays in the directory. -/
def Stays (segment : Bytes) : Prop := segment = [] ∨ segment = bytes "."

/-- A segment that leads to the directory above. -/
def Climbs (segment : Bytes) : Prop := segment = bytes ".."

instance : DecidablePred Stays := fun _ => inferInstanceAs (Decidable (_ ∨ _))
instance : DecidablePred Climbs := fun _ => inferInstanceAs (Decidable (_ = _))

/-- Follow a segment from the directory with the given names below the root, the
    innermost first. -/
def resolveSegment (below : List Bytes) (segment : Bytes) : Option (List Bytes) :=
  if Stays segment then some below
  else if Climbs segment then
    match below with
    | [] => none
    | _ :: below => some below
  else some (segment :: below)

/-- Follow the segments from left to right; `none` as soon as one leaves the root. -/
def resolve : List Bytes → List Bytes → Option (List Bytes)
  | below, [] => some below
  | below, segment :: rest => (resolveSegment below segment).bind fun below => resolve below rest

/-- No prefix of the path climbs above the root. -/
def Confined (path : Bytes) : Prop := (resolve [] (segments path)).isSome = true

/-- The segments that lead further down. -/
def descents (segments : List Bytes) : Nat := segments.countP fun s => ¬ Stays s ∧ ¬ Climbs s

def climbs (segments : List Bytes) : Nat := segments.countP fun s => Climbs s

/-- Among the first segments of the path, however many, there are at most as many
    `..` as names. -/
def Balanced (path : Bytes) : Prop :=
  ∀ n, climbs ((segments path).take n) ≤ descents ((segments path).take n)

section Resolve

variable {below : List Bytes} {segment : Bytes} {rest : List Bytes}

theorem not_climbs_of_stays (h : Stays segment) : ¬ Climbs segment := by
  unfold Stays Climbs at *
  rcases h with rfl | rfl <;> decide

/-- From a directory `below.length` names deep, the walk fails if and only if some
    prefix has more than that many `..` in excess. -/
theorem resolve_isSome_iff :
    (resolve below rest).isSome = true ↔
      ∀ n, climbs (rest.take n) ≤ below.length + descents (rest.take n) := by
  induction rest generalizing below with
  | nil => simp [resolve, climbs]
  | cons segment rest ih =>
      have hprefixes : (∀ n, climbs ((segment :: rest).take n)
            ≤ below.length + descents ((segment :: rest).take n)) ↔
          ∀ n, climbs [segment] + climbs (rest.take n)
            ≤ below.length + (descents [segment] + descents (rest.take n)) := by
        constructor
        · intro h n
          have := h (n + 1)
          rw [List.take_succ_cons, ← List.singleton_append] at this
          unfold climbs descents at *
          simpa only [List.countP_append] using this
        · intro h n
          cases n with
          | zero => simp [climbs]
          | succ n =>
              rw [List.take_succ_cons, ← List.singleton_append]
              unfold climbs descents at *
              simpa only [List.countP_append] using h n
      rw [hprefixes]
      unfold resolve resolveSegment
      by_cases hstays : Stays segment
      · have hclimbs := not_climbs_of_stays hstays
        simp [hstays, hclimbs, ih, climbs, descents]
      · by_cases hclimbs : Climbs segment
        · cases below with
          | nil =>
              simp only [hstays, hclimbs, if_true, if_false, Option.bind_none, Option.isSome_none,
                Bool.false_eq_true, false_iff, not_forall]
              exact ⟨0, by simp [climbs, descents, hclimbs]⟩
          | cons name below =>
              simp only [hstays, hclimbs, if_true, if_false, Option.bind_some, ih]
              refine forall_congr' fun n => ?_
              simp only [climbs, descents, List.countP_singleton, hclimbs, decide_true, if_true,
                not_true_eq_false, and_false, decide_false, Bool.false_eq_true, if_false,
                List.length_cons]
              omega
        · simp only [hstays, hclimbs, if_false, Option.bind_some, ih]
          refine forall_congr' fun n => ?_
          simp only [climbs, descents, List.countP_singleton, hstays, hclimbs, decide_true, if_true,
            not_false_eq_true, and_self, decide_false, Bool.false_eq_true, if_false,
            List.length_cons]
          omega

theorem confined_iff_balanced {path : Bytes} : Confined path ↔ Balanced path := by
  unfold Confined Balanced
  simpa using (resolve_isSome_iff : (resolve [] (segments path)).isSome = true ↔ _)

end Resolve

/-! ## The handler -/

namespace HTTPServer

/-- The paths that `defaultHandleRequest` passes to `stat` and to `readFile`. -/
def opened (env : Environment) (request : HTTPRequest) : List Bytes :=
  let path := filePath request.requestPath
  match env.stat path with
  | some size => if size > kMaxFileSize then [path] else [path, path]
  | none => [path]

variable {env env' : Environment} {request : HTTPRequest}

/-- The handler sees no other file. -/
theorem defaultHandleRequest_congr {response : HTTPResponse} (hmemory : env.memory = env'.memory)
    (h : ∀ path ∈ opened env request, env.stat path = env'.stat path ∧ env.file path = env'.file path) :
    defaultHandleRequest env request response = defaultHandleRequest env' request response := by
  have hpath : filePath request.requestPath ∈ opened env request := by
    unfold opened
    dsimp only
    split
    · split_ifs <;> exact List.mem_cons_self
    · exact List.mem_cons_self
  obtain ⟨hstat, hfile⟩ := h _ hpath
  unfold defaultHandleRequest readFile
  dsimp only
  rw [hstat, hfile, hmemory]

/-- What the handler opens for a request stays below the root if and only if no part of
    its path from the start on has more `..` than names. -/
theorem opened_confined_iff (request : HTTPRequest) :
    (∀ env, ∀ path ∈ opened env request, Confined path) ↔
      Balanced (filePath request.requestPath) := by
  rw [← confined_iff_balanced]
  constructor
  · intro h
    exact h .empty _ List.mem_cons_self
  · intro h env path hpath
    have heq : path = filePath request.requestPath := by
      unfold opened at hpath
      dsimp only at hpath
      split at hpath
      · split_ifs at hpath <;> simpa using hpath
      · simpa using hpath
    rw [heq]
    exact h

/-- A request that is accepted can name a file above the root. -/
theorem opened_above : ¬ ∀ data c n, HTTPContext.new.parse data = .ok (c, n) →
    ∀ env, ∀ path ∈ opened env c.request, Confined path := by
  intro h
  have hpath : (HTTPContext.new.parse (bytes "GET /../x HTTP/1.1\r\n\r\n")).toOption.map
      (fun r => r.1.request.requestPath) = some (bytes "/../x") := by
    decide +kernel
  cases hparse : HTTPContext.new.parse (bytes "GET /../x HTTP/1.1\r\n\r\n") with
  | error f =>
      rw [hparse] at hpath
      cases hpath
  | ok r =>
      rw [hparse] at hpath
      have hopened := h _ r.1 r.2 hparse .empty _ List.mem_cons_self
      have heq : r.1.request.requestPath = bytes "/../x" := Option.some.inj hpath
      rw [heq] at hopened
      exact absurd hopened (by unfold Confined; decide)

end HTTPServer

end QGServer
