-- SUMMARY: Routes: their registration, the handler that looks them up, and the handler that a message gets.
import QGServer.Http.Files

/-!
# Routing

`route` registers callbacks, and `handleRequest` looks them up. The message
callback of the server does not call it: every request goes to the file handler.

What a registered callback does is a parameter of the model. A `Handling` lists
the callbacks that were invoked.
-/

namespace QGServer

namespace HTTPServer

/-- `HTTPServer::Method`. -/
inductive Method where
  | get | put | delete | post
  deriving DecidableEq, Repr

/-! ## The table -/

section Table

variable {β : Type*} {router : Method → List (Bytes × β)} {m : Method} {path : Bytes}

structure Registration (β : Type*) where
  path : Bytes
  method : Method
  cb : β

/-- `router_t`: the callbacks of a method, by path. -/
abbrev Router (β : Type*) := Method → List (Bytes × β)

def find (table : List (Bytes × β)) (path : Bytes) : Option β :=
  (table.find? fun entry => entry.1 = path).map Prod.snd

/-- `route`. A path keeps the callback that it has. -/
def route (router : Router β) (reg : Registration β) : Router β := fun m =>
  if m = reg.method ∧ find (router m) reg.path = none then router m ++ [(reg.path, reg.cb)]
  else router m

/-- The table after some registrations. -/
def routeAll (regs : List (Registration β)) : Router β := regs.foldl route fun _ => []

/-- The callback that was registered first for a method and a path. -/
def firstRoute (regs : List (Registration β)) (m : Method) (path : Bytes) : Option β :=
  (regs.find? fun reg => reg.method = m ∧ reg.path = path).map Registration.cb

theorem find_append (table : List (Bytes × β)) (path path' : Bytes) (cb : β) :
    find (table ++ [(path', cb)]) path =
      (find table path).or (if path' = path then some cb else none) := by
  unfold find
  rw [List.find?_append]
  cases table.find? fun entry => entry.1 = path with
  | some entry => rfl
  | none =>
      by_cases h : path' = path
      · simp [h]
      · simp [h]

theorem find_route (reg : Registration β) :
    find (route router reg m) path =
      (find (router m) path).or
        (if reg.method = m ∧ reg.path = path then some reg.cb else none) := by
  unfold route
  by_cases hm : reg.method = m
  · subst hm
    cases hfind : find (router reg.method) reg.path with
    | none => simp [find_append]
    | some cb =>
        by_cases hpath : reg.path = path
        · subst hpath
          simp [hfind]
        · simp [hpath]
  · simp [hm, Ne.symm hm]

theorem find_foldl (regs : List (Registration β)) :
    find (regs.foldl route router m) path =
      (find (router m) path).or (firstRoute regs m path) := by
  induction regs generalizing router with
  | nil => simp [firstRoute]
  | cons reg regs ih =>
      rw [List.foldl_cons, ih, find_route, Option.or_assoc]
      congr 1
      unfold firstRoute
      by_cases h : reg.method = m ∧ reg.path = path
      · simp [h]
      · simp [h]

/-- What is found is what was registered first. -/
theorem find_routeAll (regs : List (Registration β)) :
    find (routeAll regs m) path = firstRoute regs m path := by
  unfold routeAll
  rw [find_foldl]
  rfl

end Table

/-! ## Handlers -/

/-- What a handler comes to, and the callbacks that were invoked, each with the
    request and the response it was given. -/
structure Handling (β α : Type*) where
  invoked : List (β × HTTPRequest × HTTPResponse)
  result : Except Fault α

/-- Nothing is invoked before `r` is there. -/
def Handling.after {β α γ : Type*} (r : Except Fault γ) (f : γ → Handling β α) : Handling β α :=
  match r with
  | .error fault => ⟨[], .error fault⟩
  | .ok x => f x

def Handling.map {β α γ : Type*} (f : α → γ) (h : Handling β α) : Handling β γ :=
  ⟨h.invoked, h.result.map f⟩

section Handlers

variable {β : Type*}

/-- The end of `handleRequest`. -/
def callRoute (run : β → HTTPRequest → HTTPResponse → Except Fault HTTPResponse)
    (env : Environment) (realRouter : List (Bytes × β)) (request : HTTPRequest)
    (response : HTTPResponse) : Handling β HTTPResponse :=
  match find realRouter request.requestPath with
  | some cb => ⟨[(cb, request, response)], run cb request response⟩
  | none => ⟨[], defaultHandleRequest env request response⟩

def handleRequest (run : β → HTTPRequest → HTTPResponse → Except Fault HTTPResponse)
    (env : Environment) (router : Router β) (request : HTTPRequest) (response : HTTPResponse) :
    Handling β HTTPResponse :=
  match request.method with
  | some .get => callRoute run env (router .get) request response
  | some .delete => callRoute run env (router .delete) request response
  | some .post => callRoute run env (router .post) request response
  | some .put => callRoute run env (router .put) request response
  | _ => ⟨[], .ok (response.setStatus 405)⟩

/-- `handleMessageCome` with the value of `parse`, up to the handler that it calls. -/
def handleParsedBy (handle : HTTPRequest → HTTPResponse → Handling β HTTPResponse)
    (env : Environment) (context : HTTPContext) (nparse : Int) :
    Handling β (HTTPContext × List Call) :=
  if nparse < 0 then ⟨[], .ok (context, [.shutdown])⟩
  else if context.request.messageIsEnd then
    (handle context.request .new).map fun response =>
      (context.reset, [.write (response.toString env.timeOfDay)])
  else ⟨[], .ok (context, [])⟩

def handleMessageComeBy (handle : HTTPRequest → HTTPResponse → Handling β HTTPResponse)
    (env : Environment) (readBuf : Bytes) (context : HTTPContext) :
    Handling β (HTTPContext × List Call) :=
  .after (context.parse readBuf) fun r => handleParsedBy handle env r.1 r.2

/-- The handler that `handleMessageCome` calls, whatever is in the table. -/
def messageHandler (_router : Router β) (env : Environment) (request : HTTPRequest)
    (response : HTTPResponse) : Handling β HTTPResponse :=
  ⟨[], defaultHandleRequest env request response⟩

/-- `handleMessageCome` of a server with a table of callbacks. -/
def messageCome (router : Router β) (env : Environment) (readBuf : Bytes) (context : HTTPContext) :
    Handling β (HTTPContext × List Call) :=
  handleMessageComeBy (messageHandler router env) env readBuf context

variable {env : Environment} {readBuf : Bytes} {c c' : HTTPContext} {n : Int} {router : Router β}
  {handle : HTTPRequest → HTTPResponse → Handling β HTTPResponse}

theorem handleMessageComeBy_end (hparse : c.parse readBuf = .ok (c', n)) (hn : 0 ≤ n)
    (hend : c'.request.messageIsEnd = true) :
    handleMessageComeBy handle env readBuf c =
      (handle c'.request .new).map fun response =>
        (.new, [.write (response.toString env.timeOfDay)]) := by
  unfold handleMessageComeBy
  rw [hparse]
  change handleParsedBy handle env c' n = _
  unfold handleParsedBy
  rw [if_neg (Int.not_lt.mpr hn), if_pos hend]
  rfl

/-- The table makes no difference. -/
theorem messageCome_result :
    (messageCome router env readBuf c).result = handleMessageCome env readBuf c := by
  unfold messageCome handleMessageComeBy
  cases hparse : c.parse readBuf with
  | error f => exact (handleMessageCome_error hparse).symm
  | ok r =>
      obtain ⟨c', n⟩ := r
      rw [handleMessageCome_ok hparse]
      change (handleParsedBy (messageHandler router env) env c' n).result = _
      unfold handleParsedBy handleParsed
      split_ifs
      · rfl
      · unfold answer messageHandler
        cases defaultHandleRequest env c'.request .new <;> rfl
      · rfl

end Handlers

/-! ## The property -/

/-- The method that a request's method is registered under. -/
def routeMethod : HttpMethod → Option Method
  | .get => some .get
  | .put => some .put
  | .delete => some .delete
  | .post => some .post
  | _ => none

/-- A response of status 405 is written. -/
def NotAllowed (calls : List Call) : Prop :=
  ∃ response, calls = [.write response] ∧ bytes "HTTP/1.1 405 " <+: response

/-- A complete request goes to the callback that was registered first for its method and
    path, and without one to the file handler; another method is not allowed. -/
structure Routed {β : Type*} (regs : List (Registration β)) (env : Environment)
    (request : HTTPRequest) (handling : Handling β (HTTPContext × List Call)) : Prop where
  registered : ∀ m cb, request.method.bind routeMethod = some m →
    firstRoute regs m request.requestPath = some cb → handling.invoked = [(cb, request, .new)]
  file : ∀ m, request.method.bind routeMethod = some m →
    firstRoute regs m request.requestPath = none →
      ∃ response c, defaultHandleRequest env request .new = .ok response ∧
        handling.result = .ok (c, [.write (response.toString env.timeOfDay)])
  other : request.method.bind routeMethod = none →
    ∃ c calls, handling.result = .ok (c, calls) ∧ NotAllowed calls

/-- No callback was registered for a request with a method that has routes. -/
def Unrouted {β : Type*} (regs : List (Registration β)) (request : HTTPRequest) : Prop :=
  ∃ m, request.method.bind routeMethod = some m ∧ firstRoute regs m request.requestPath = none

section Routed

variable {β : Type*} {regs : List (Registration β)} {env : Environment} {readBuf : Bytes}
  {c c' : HTTPContext} {n : Int} {request : HTTPRequest}
  {run : β → HTTPRequest → HTTPResponse → Except Fault HTTPResponse}

theorem handleRequest_routed {m : Method} (hm : request.method.bind routeMethod = some m)
    (router : Router β) (response : HTTPResponse) :
    handleRequest run env router request response =
      callRoute run env (router m) request response := by
  unfold handleRequest
  cases hmethod : request.method with
  | none =>
      rw [hmethod] at hm
      cases hm
  | some method =>
      rw [hmethod] at hm
      cases method <;> cases hm <;> rfl

theorem handleRequest_other (hm : request.method.bind routeMethod = none) (router : Router β)
    (response : HTTPResponse) :
    handleRequest run env router request response = ⟨[], .ok (response.setStatus 405)⟩ := by
  unfold handleRequest
  cases hmethod : request.method with
  | none => rfl
  | some method =>
      rw [hmethod] at hm
      cases method <;> first | rfl | cases hm

theorem notAllowed_toString (date : Bytes) (response : HTTPResponse) :
    NotAllowed [.write ((response.setStatus 405).toString date)] := by
  refine ⟨_, rfl, List.IsPrefix.trans ?_ (HTTPResponse.statusLine_prefix _ _)⟩
  have hstatus : (response.setStatus 405).status = bytes "405 Method is not allowed" := rfl
  rw [hstatus]
  decide

/-- The handler that looks callbacks up does what is asked for, if the file handler
    returns. -/
theorem routed_handleRequest (hparse : c.parse readBuf = .ok (c', n)) (hn : 0 ≤ n)
    (hend : c'.request.messageIsEnd = true)
    (hfile : Unrouted regs c'.request → Readable env c'.request.requestPath) :
    Routed regs env c'.request
      (handleMessageComeBy (handleRequest run env (routeAll regs)) env readBuf c) := by
  rw [handleMessageComeBy_end hparse hn hend]
  constructor
  · intro m cb hm hcb
    rw [handleRequest_routed hm, callRoute, find_routeAll, hcb]
    rfl
  · intro m hm hnone
    obtain ⟨response, hresponse⟩ :=
      (defaultHandleRequest_ok_iff .new).mpr (hfile ⟨m, hm, hnone⟩)
    refine ⟨response, .new, hresponse, ?_⟩
    rw [handleRequest_routed hm, callRoute, find_routeAll, hnone]
    simp only [Handling.map, hresponse, Except.map]
  · intro hm
    rw [handleRequest_other hm]
    exact ⟨_, _, rfl, notAllowed_toString _ _⟩

/-- The file handler never says that a method is not allowed. -/
theorem not_notAllowed {response : HTTPResponse} (date : Bytes)
    (h : defaultHandleRequest env request .new = .ok response) :
    ¬ NotAllowed [.write (response.toString date)] := by
  rintro ⟨written, hwritten, hprefix⟩
  cases hwritten
  have hline := HTTPResponse.statusLine_prefix date response
  rcases status_cases h with hs | hs | hs
  all_goals
    rw [hs] at hline
    exact absurd (List.prefix_of_prefix_length_le hprefix hline (by decide)) (by decide)

/-- A complete request is routed exactly if no callback was registered for it, its method
    is one that has routes, and its file can be read. -/
theorem routed_iff (hparse : c.parse readBuf = .ok (c', n)) (hn : 0 ≤ n)
    (hend : c'.request.messageIsEnd = true) :
    Routed regs env c'.request (messageCome (routeAll regs) env readBuf c) ↔
      Unrouted regs c'.request ∧ Readable env c'.request.requestPath := by
  unfold messageCome
  rw [handleMessageComeBy_end hparse hn hend]
  constructor
  · intro h
    cases hm : c'.request.method.bind routeMethod with
    | none =>
        obtain ⟨c'', calls, hresult, hcalls⟩ := h.other hm
        cases hhandle : defaultHandleRequest env c'.request .new with
        | error f =>
            simp only [Handling.map, messageHandler, hhandle] at hresult
            cases hresult
        | ok response =>
            simp only [Handling.map, messageHandler, hhandle] at hresult
            cases hresult
            exact absurd hcalls (not_notAllowed _ hhandle)
    | some m =>
        cases hroute : firstRoute regs m c'.request.requestPath with
        | some cb => cases h.registered m cb hm hroute
        | none =>
            obtain ⟨response, -, hresponse, -⟩ := h.file m hm hroute
            exact ⟨⟨m, hm, hroute⟩, (defaultHandleRequest_ok_iff .new).mp ⟨response, hresponse⟩⟩
  · rintro ⟨⟨m, hm, hroute⟩, hfile⟩
    obtain ⟨response, hresponse⟩ := (defaultHandleRequest_ok_iff .new).mpr hfile
    constructor
    · intro m' cb hm' hcb
      cases hm.symm.trans hm'
      cases hroute.symm.trans hcb
    · intro m' _ _
      refine ⟨response, .new, hresponse, ?_⟩
      simp only [Handling.map, messageHandler, hresponse, Except.map]
    · intro hm'
      cases hm.symm.trans hm'

/-- A request for which nothing was registered, and a file that does not exist. -/
theorem routed_iff_file :
    ∃ request : HTTPRequest, Routed ([] : List (Registration Unit)) .empty request
      (messageCome (routeAll []) .empty (bytes "GET /a HTTP/1.1\r\n\r\n") .new) := by
  obtain ⟨c', hparse, hend, hmethod, hpath⟩ := parse_get
  refine ⟨c'.request, (routed_iff hparse (by decide) hend).mpr ⟨⟨.get, ?_, rfl⟩, ?_⟩⟩
  · rw [hmethod]
    rfl
  · intro size hsize
    cases hsize

/-- A callback that is registered is not invoked. -/
theorem not_routed :
    ¬ ∀ (regs : List (Registration Unit)) (env : Environment) (readBuf : Bytes)
        (c c' : HTTPContext) (n : Int), c.parse readBuf = .ok (c', n) → 0 ≤ n →
      c'.request.messageIsEnd = true →
        Routed regs env c'.request (messageCome (routeAll regs) env readBuf c) := by
  intro hclaim
  obtain ⟨c', hparse, hend, hmethod, hpath⟩ := parse_get
  have hrouted := hclaim [⟨bytes "/a", .get, ()⟩] .empty _ .new c' 19 hparse (by decide) hend
  have hinvoked := hrouted.registered .get () (by rw [hmethod]; rfl) (by rw [hpath]; decide)
  unfold messageCome at hinvoked
  rw [handleMessageComeBy_end hparse (by decide) hend] at hinvoked
  cases hinvoked

end Routed

end HTTPServer

end QGServer
