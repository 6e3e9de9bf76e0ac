-- SUMMARY: What a connection sees of the server is a session: every step of the server is a step of the session it works for.
import QGServer.Core.Server
import QGServer.Core.Teardown

/-!
# Sessions of the server

`Server.session i` cuts out of the server what connection `i` sees: its own
functors of the two loops, in their order, its entry in `connections_` and its
entry in the handler map. The work a loop does for a connection changes only
the session of that connection, and changes it as a step of the session does.

Both tables are keyed by descriptor, and descriptors are reused. So this rests
on the fact that two connections that are alive never share one.
-/

namespace QGServer

namespace Server

variable {κ ε : Type*} {s s' t : Server κ} {i j k : Nat}

/-! ## Sessions after single updates -/

theorem session_setConnection_of_ne (g : Connection κ → Connection κ) (h : j ≠ i) :
    (s.setConnection i g).session j = s.session j := by
  simp [session, setConnection, Function.update_of_ne h]

/-- An update of what is the connection's own, at the same descriptor and loop. -/
theorem session_setConnection (g : Connection κ → Connection κ)
    (hfd : (g (s.connection i)).fd = (s.connection i).fd)
    (hloop : (g (s.connection i)).loop = (s.connection i).loop) :
    (s.setConnection i g).session i =
      { s.session i with
        conn := (g (s.connection i)).conn, context := (g (s.connection i)).context
        closed := (g (s.connection i)).closed, socket := (g (s.connection i)).socket } := by
  simp [session, setConnection, hfd, hloop]

/-- An update of the queue of loop `l` is seen by the connections of that loop,
    and by all if it is the base loop. -/
theorem session_setQueue (l : Nat) (g : BatchQueue Functor → BatchQueue Functor) :
    (s.setLoop l fun x => { x with queue := g x.queue }).session j =
      { s.session j with
        io := if (s.connection j).loop = l then (g (s.loops l).queue).filterMap (Functor.ioOf j)
          else (s.session j).io
        base := if l = 0 then (g (s.loops l).queue).filterMap (Functor.baseOf j)
          else (s.session j).base } := by
  simp only [session, setLoop, Function.update_apply, Session.mk.injEq, true_and, and_true]
  refine ⟨?_, ?_, ?_, ?_⟩
  · split <;> rfl
  · by_cases hbase : l = 0
    · simp [hbase]
    · simp [hbase, Ne.symm hbase]
  · split
    · rename_i hloop
      rw [hloop]
    · rfl
  · split
    · rename_i hloop
      rw [hloop]
    · rfl

theorem session_addFunctor_io (f : IoFunctor) :
    (s.addFunctor (s.connection i).loop (.io i f)).session i =
      { s.session i with io := (s.session i).io.push f } := by
  have hio : Functor.ioOf i (.io i f) = some f := by simp [Functor.ioOf]
  have hbase : Functor.baseOf i (.io i f) = none := rfl
  unfold addFunctor
  rw [session_setQueue, BatchQueue.filterMap_push_some hio, BatchQueue.filterMap_push_none hbase,
    if_pos rfl]
  split
  · rename_i hzero
    simp [session, hzero]
  · rfl

theorem session_addFunctor_io_of_ne (l : Nat) (f : IoFunctor) (h : j ≠ i) :
    (s.addFunctor l (.io i f)).session j = s.session j := by
  have hio : Functor.ioOf j (.io i f) = none := by simp [Functor.ioOf, Ne.symm h]
  have hbase : Functor.baseOf j (.io i f) = none := rfl
  unfold addFunctor
  rw [session_setQueue, BatchQueue.filterMap_push_none hio, BatchQueue.filterMap_push_none hbase]
  split <;> split <;> simp_all [session]

theorem session_addFunctor_close :
    (s.addFunctor 0 (.handleConnectionClose i)).session i =
      { s.session i with base := (s.session i).base.push .handleConnectionClose } := by
  have hio : Functor.ioOf i (.handleConnectionClose i) = none := rfl
  have hbase : Functor.baseOf i (.handleConnectionClose i) = some .handleConnectionClose := by
    simp [Functor.baseOf]
  unfold addFunctor
  rw [session_setQueue, BatchQueue.filterMap_push_none hio, BatchQueue.filterMap_push_some hbase]
  split <;> simp_all [session]

theorem session_addFunctor_close_of_ne (h : j ≠ i) :
    (s.addFunctor 0 (.handleConnectionClose i)).session j = s.session j := by
  have hio : Functor.ioOf j (.handleConnectionClose i) = none := rfl
  have hbase : Functor.baseOf j (.handleConnectionClose i) = none := by
    simp [Functor.baseOf, Ne.symm h]
  unfold addFunctor
  rw [session_setQueue, BatchQueue.filterMap_push_none hio, BatchQueue.filterMap_push_none hbase]
  split <;> simp_all [session]

/-- An update of the running callback of loop `l`. -/
theorem session_setFrame (l : Nat) (f : Option (Nat × Frame)) :
    (s.setLoop l fun x => { x with frame := f }).session j =
      { s.session j with
        frame := if (s.connection j).loop = l then
            f.bind fun (k, f) => if k = j then some f else none
          else (s.session j).frame } := by
  simp only [session, setLoop, Function.update_apply, Session.mk.injEq, true_and, and_true]
  refine ⟨?_, ?_, ?_, ?_⟩
  · split
    · rename_i hloop
      rw [hloop]
    · rfl
  · split
    · rename_i hbase
      rw [← hbase]
    · rfl
  · split <;> rfl
  · split
    · rename_i hloop
      rw [hloop]
    · rfl

theorem session_setHandler (h : Option Nat) :
    (s.setHandler i h).session i = { s.session i with registered := h == some i } := by
  simp only [session, setHandler, setLoop, Function.update_apply, Session.mk.injEq, true_and,
    and_true, if_true]
  split
  · rename_i hbase
    simp [← hbase]
  · rfl

theorem session_setHandler_of_ne (h : Option Nat) (hne : j ≠ i) (hown : h = none ∨ h = some i)
    (hbefore : s.handlerOf i = none ∨ s.handlerOf i = some i) :
    (s.setHandler i h).session j = s.session j := by
  have hafter : (h == some j) = false := by
    rcases hown with rfl | rfl <;> simp [Ne.symm hne]
  have hbefore' : (s.handlerOf i == some j) = false := by
    rcases hbefore with heq | heq <;> simp [heq, Ne.symm hne]
  unfold handlerOf at hbefore'
  simp only [session, setHandler, setLoop, Function.update_apply, Session.mk.injEq, true_and,
    and_true]
  refine ⟨?_, ?_, ?_, ?_⟩
  · split
    · rename_i hloop
      rw [hloop]
    · rfl
  · split
    · rename_i hbase
      rw [← hbase]
    · rfl
  · split
    · rename_i hloop
      rw [hloop]
    · rfl
  · split
    · rename_i hloop
      dsimp only
      rw [Function.update_apply]
      split
      · rename_i hfd
        rw [hafter, hloop, hfd, hbefore']
      · rw [hloop]
    · rfl

/-! ## Loops after single updates -/

section Loops

variable {l m : Nat} {f x : Functor} {h : Option Nat}

@[simp] theorem handlerMap_addFunctor :
    ((s.addFunctor l f).loops m).handlerMap = (s.loops m).handlerMap := by
  by_cases hm : m = l
  · simp [addFunctor, setLoop, hm]
  · simp [addFunctor, setLoop, Function.update_of_ne hm]

@[simp] theorem frame_addFunctor : ((s.addFunctor l f).loops m).frame = (s.loops m).frame := by
  by_cases hm : m = l
  · simp [addFunctor, setLoop, hm]
  · simp [addFunctor, setLoop, Function.update_of_ne hm]

@[simp] theorem connection_addFunctor : (s.addFunctor l f).connection = s.connection := rfl

theorem mem_queue_addFunctor :
    x ∈ ((s.addFunctor l f).loops m).queue.all ↔ x ∈ (s.loops m).queue.all ∨ m = l ∧ x = f := by
  by_cases hm : m = l
  · simp [addFunctor, setLoop, hm]
  · simp [addFunctor, setLoop, hm]

theorem queue_setHandler : ((s.setHandler i h).loops m).queue = (s.loops m).queue := by
  by_cases hm : m = (s.connection i).loop
  · simp [setHandler, setLoop, hm]
  · simp [setHandler, setLoop, Function.update_of_ne hm]

theorem frame_setHandler : ((s.setHandler i h).loops m).frame = (s.loops m).frame := by
  by_cases hm : m = (s.connection i).loop
  · simp [setHandler, setLoop, hm]
  · simp [setHandler, setLoop, Function.update_of_ne hm]

end Loops

/-! ## What belongs to whom -/

/-- Every number of a connection that the server holds is that of a connection
    that was constructed, at its own loop and under its own descriptor. -/
structure Owned (s : Server κ) : Prop where
  handlers : ∀ l fd i, (s.loops l).handlerMap fd = some i →
    i < s.constructed ∧ (s.connection i).fd = fd ∧ (s.connection i).loop = l
  entries : ∀ fd i, s.connections fd = some i → i < s.constructed ∧ (s.connection i).fd = fd
  functors : ∀ l i f, .io i f ∈ (s.loops l).queue.all →
    i < s.constructed ∧ (s.connection i).loop = l
  closes : ∀ l i, .handleConnectionClose i ∈ (s.loops l).queue.all → i < s.constructed ∧ l = 0
  frames : ∀ l i f, (s.loops l).frame = some (i, f) → i < s.constructed ∧ (s.connection i).loop = l

/-- No other connection has a handler where that of connection `i` goes. -/
def OwnHandler (s : Server κ) (i : Nat) : Prop := s.handlerOf i = none ∨ s.handlerOf i = some i

/-- The loop of connection `i` is in no callback of another connection. -/
def OwnFrame (s : Server κ) (i : Nat) : Prop :=
  ∀ j f, (s.loops (s.connection i).loop).frame = some (j, f) → j = i

/-- The process was not ended by another connection. -/
def OwnFault (s : Server κ) (i : Nat) : Prop := ∀ j f, s.fault = some (j, f) → j = i

/-- What the work for connection `i` leaves alone. -/
structure Local (i : Nat) (s t : Server κ) : Prop where
  constructed : t.constructed = s.constructed
  fd : ∀ j, (t.connection j).fd = (s.connection j).fd
  loop : ∀ j, (t.connection j).loop = (s.connection j).loop
  others : ∀ j, j ≠ i → t.session j = s.session j
  owned : s.Owned → t.Owned
  handler : s.OwnHandler i → t.OwnHandler i
  callback : s.OwnFrame i → t.OwnFrame i
  fault : s.OwnFault i → t.OwnFault i

namespace Local

protected theorem refl (s : Server κ) : Local i s s :=
  ⟨rfl, fun _ => rfl, fun _ => rfl, fun _ _ => rfl, id, id, id, id⟩

protected theorem trans {r : Server κ} (h : Local i s t) (h' : Local i t r) : Local i s r :=
  ⟨h'.constructed.trans h.constructed, fun j => (h'.fd j).trans (h.fd j),
    fun j => (h'.loop j).trans (h.loop j),
    fun j hj => (h'.others j hj).trans (h.others j hj), fun ho => h'.owned (h.owned ho),
    fun ho => h'.handler (h.handler ho), fun ho => h'.callback (h.callback ho),
    fun ho => h'.fault (h.fault ho)⟩

/-- Updates of what is the connection's own. -/
theorem setConnection (g : Connection κ → Connection κ)
    (hfd : (g (s.connection i)).fd = (s.connection i).fd)
    (hloop : (g (s.connection i)).loop = (s.connection i).loop) :
    Local i s (s.setConnection i g) := by
  have hfd' : ∀ j, ((s.setConnection i g).connection j).fd = (s.connection j).fd := by
    intro j
    by_cases hj : j = i
    · subst hj
      simpa [Server.setConnection] using hfd
    · simp [Server.setConnection, Function.update_of_ne hj]
  have hloop' : ∀ j, ((s.setConnection i g).connection j).loop = (s.connection j).loop := by
    intro j
    by_cases hj : j = i
    · subst hj
      simpa [Server.setConnection] using hloop
    · simp [Server.setConnection, Function.update_of_ne hj]
  refine ⟨rfl, hfd', hloop', fun j hj => session_setConnection_of_ne g hj, fun ho => ?_,
    fun ho => ?_, fun ho => ?_, id⟩
  · refine ⟨fun l fd k hk => ?_, fun fd k hk => ?_, fun l k f hk => ?_, ho.closes,
      fun l k f hk => ?_⟩
    · rw [hfd', hloop']
      exact ho.handlers l fd k hk
    · rw [hfd']
      exact ho.entries fd k hk
    · rw [hloop']
      exact ho.functors l k f hk
    · rw [hloop']
      exact ho.frames l k f hk
  · unfold OwnHandler handlerOf at ho ⊢
    rw [hfd', hloop']
    exact ho
  · unfold OwnFrame at ho ⊢
    rw [hloop']
    exact ho

/-- A functor for the connection, in the queue of a loop that runs such functors. -/
theorem addFunctor {l : Nat} {f : Functor} (hi : i < s.constructed)
    (hf : (∃ g, f = .io i g ∧ l = (s.connection i).loop) ∨ f = .handleConnectionClose i ∧ l = 0)
    (hothers : ∀ j, j ≠ i → (s.addFunctor l f).session j = s.session j) :
    Local i s (s.addFunctor l f) := by
  refine ⟨rfl, fun _ => rfl, fun _ => rfl, hothers, fun ho => ?_, fun ho => ?_, fun ho => ?_, id⟩
  · refine ⟨fun m fd k hk => ho.handlers m fd k (by simpa using hk), ho.entries, ?_, ?_,
      fun m k g hk => ho.frames m k g (by simpa using hk)⟩
    · intro m k g hk
      rcases mem_queue_addFunctor.mp hk with hold | ⟨hm, hnew⟩
      · exact ho.functors m k g hold
      · rcases hf with ⟨g', hf, hl⟩ | ⟨hf, -⟩
        · cases hnew.trans hf
          exact ⟨hi, hm.trans hl ▸ rfl⟩
        · cases hnew.trans hf
    · intro m k hk
      rcases mem_queue_addFunctor.mp hk with hold | ⟨hm, hnew⟩
      · exact ho.closes m k hold
      · rcases hf with ⟨g', hf, -⟩ | ⟨hf, hl⟩
        · cases hnew.trans hf
        · cases hnew.trans hf
          exact ⟨hi, hm.trans hl⟩
  · simpa [OwnHandler, handlerOf] using ho
  · simpa [OwnFrame] using ho

theorem setHandler {h : Option Nat} (hi : i < s.constructed) (hown : h = none ∨ h = some i)
    (hbefore : s.OwnHandler i) : Local i s (s.setHandler i h) := by
  refine ⟨rfl, fun _ => rfl, fun _ => rfl,
    fun j hj => session_setHandler_of_ne h hj hown hbefore, fun ho => ?_, fun _ => ?_,
    fun ho => ?_, id⟩
  · refine ⟨fun m fd k hk => ?_, ho.entries, fun m k g hk => ho.functors m k g ?_,
      fun m k hk => ho.closes m k ?_, fun m k g hk => ho.frames m k g ?_⟩
    · by_cases hm : m = (s.connection i).loop
      · subst hm
        by_cases hfd : fd = (s.connection i).fd
        · subst hfd
          obtain rfl : h = some k := by simpa [Server.setHandler, setLoop] using hk
          obtain rfl : k = i := by simpa using hown
          exact ⟨hi, rfl, rfl⟩
        · exact ho.handlers _ fd k (by
            simpa [Server.setHandler, setLoop, Function.update_of_ne hfd] using hk)
      · exact ho.handlers m fd k (by
          simpa [Server.setHandler, setLoop, Function.update_of_ne hm] using hk)
    · simpa [queue_setHandler] using hk
    · simpa [queue_setHandler] using hk
    · simpa [frame_setHandler] using hk
  · rcases hown with rfl | rfl <;> simp [OwnHandler, handlerOf, Server.setHandler, setLoop]
  · unfold OwnFrame
    rw [frame_setHandler]
    exact ho

theorem fail {f : Fault} (hfault : s.OwnFault i) : Local i s (s.fail i f) := by
  refine ⟨rfl, fun _ => rfl, fun _ => rfl, fun j hj => ?_,
    fun ho => ⟨ho.handlers, ho.entries, ho.functors, ho.closes, ho.frames⟩, id, id, ?_⟩
  · have hnone : (s.session j).fault = none := by
      refine Option.bind_eq_none_iff.mpr ?_
      rintro ⟨k, f'⟩ hk
      simp [hfault k f' hk, Ne.symm hj]
    simp only [session] at hnone
    simp [session, Server.fail, hnone, Ne.symm hj]
  · intro _ k f' hk
    exact (congrArg Prod.fst (Option.some.inj hk)).symm

end Local

/-! ## Work for one connection -/

/-- The server works for connection `i`. -/
structure Acting (s : Server κ) (i : Nat) : Prop where
  constructed : i < s.constructed
  handler : s.OwnHandler i
  callback : s.OwnFrame i
  fault : s.OwnFault i

theorem Acting.local (h : s.Acting i) (hl : Local i s t) : t.Acting i :=
  ⟨hl.constructed ▸ h.constructed, hl.handler h.handler, hl.callback h.callback,
    hl.fault h.fault⟩

/-- The work for connection `i` from `s` to `t` takes its session to `σ`, and what
    `connection_number_` loses the connection counts as closed. -/
structure Acts (i : Nat) (s t : Server κ) (σ : Session κ) : Prop where
  frame : Local i s t
  session : t.session i = σ
  number : t.connectionNumber + (t.connection i).closed
    = s.connectionNumber + (s.connection i).closed

/-- What a session does, the server does, from every state in which it works for
    the connection. -/
def Mirrors (i : Nat) (f : Server κ → Server κ) (g : Session κ → Session κ) : Prop :=
  ∀ s : Server κ, s.Acting i → Acts i s (f s) (g (s.session i))

theorem Mirrors.comp {f f' : Server κ → Server κ} {g g' : Session κ → Session κ}
    (h : Mirrors i f g) (h' : Mirrors i f' g') :
    Mirrors i (fun s => f' (f s)) fun σ => g' (g σ) := by
  intro s hs
  have hfirst := h s hs
  have hsecond := h' (f s) (hs.local hfirst.frame)
  exact ⟨hfirst.frame.trans hsecond.frame, by rw [hsecond.session, hfirst.session],
    hsecond.number.trans hfirst.number⟩

theorem isSome_handlerOf (h : s.OwnHandler i) :
    (s.handlerOf i).isSome = (s.session i).registered := by
  have hreg : (s.session i).registered = (s.handlerOf i == some i) := rfl
  rcases h with h | h <;> simp [hreg, h]

theorem isSome_fault (h : s.OwnFault i) : s.fault.isSome = (s.session i).fault.isSome := by
  cases hf : s.fault with
  | none => simp [Server.session, hf]
  | some kf =>
      obtain ⟨k, f⟩ := kf
      obtain rfl := h k f hf
      simp [Server.session, hf]

theorem mirrors_fail (f : Fault) : Mirrors i (Server.fail (κ := κ) i f) (Session.fail f) := by
  intro s hs
  refine ⟨.fail hs.fault, ?_, rfl⟩
  simp [Server.session, Server.fail, Session.fail]

theorem mirrors_setConnection (g : Connection κ → Connection κ) (g' : Session κ → Session κ)
    (hfd : ∀ c, (g c).fd = c.fd) (hloop : ∀ c, (g c).loop = c.loop)
    (hclosed : ∀ c, (g c).closed = c.closed)
    (hg : ∀ s : Server κ, g' (s.session i) =
      { s.session i with
        conn := (g (s.connection i)).conn, context := (g (s.connection i)).context
        closed := (g (s.connection i)).closed, socket := (g (s.connection i)).socket }) :
    Mirrors i (setConnection i g) g' := fun s _ =>
  ⟨.setConnection g (hfd _) (hloop _),
    (session_setConnection g (hfd _) (hloop _)).trans (hg s).symm, by simp [setConnection, hclosed]⟩

theorem mirrors_setConn (c : TcpConnection) :
    Mirrors i (setConn (κ := κ) i c) fun σ => { σ with conn := c } :=
  mirrors_setConnection (fun x => { x with conn := c }) _ (fun _ => rfl) (fun _ => rfl)
    (fun _ => rfl) fun _ => rfl

theorem mirrors_socket (e : SocketEvent) :
    Mirrors i (setConnection (κ := κ) i fun c => { c with socket := c.socket ++ [e] })
      fun σ => { σ with socket := σ.socket ++ [e] } :=
  mirrors_setConnection _ _ (fun _ => rfl) (fun _ => rfl) (fun _ => rfl) fun _ => rfl

theorem acts_addFunctor_io (f : IoFunctor) (hi : i < s.constructed) :
    Acts i s (s.addFunctor (s.connection i).loop (.io i f))
      { s.session i with io := (s.session i).io.push f } :=
  ⟨.addFunctor hi (.inl ⟨f, rfl, rfl⟩) fun _ hj => session_addFunctor_io_of_ne _ f hj,
    session_addFunctor_io f, rfl⟩

theorem mirrors_addFunctor_io (f : IoFunctor) :
    Mirrors i (fun s : Server κ => s.addFunctor (s.connection i).loop (.io i f))
      fun σ => { σ with io := σ.io.push f } := fun _ hs => acts_addFunctor_io f hs.constructed

theorem mirrors_addFunctor_close :
    Mirrors i (addFunctor (κ := κ) 0 (.handleConnectionClose i))
      fun σ => { σ with base := σ.base.push .handleConnectionClose } := fun _ hs =>
  ⟨.addFunctor hs.constructed (.inr ⟨rfl, rfl⟩) fun _ hj => session_addFunctor_close_of_ne hj,
    session_addFunctor_close, rfl⟩

/-- The server does for a connection what its session does. -/
theorem mirrors_carryOut (e : Effect) :
    Mirrors i (fun s : Server κ => s.carryOut i e) fun σ => σ.carryOut e := by
  intro s hs
  cases e with
  | write p handed => exact mirrors_socket (.write p) s hs
  | addWriteComplete buf => exact mirrors_addFunctor_io (.writeComplete buf) s hs
  | addWriteInLoop data => exact mirrors_addFunctor_io (.writeInLoop data) s hs
  | closeCallBack => exact mirrors_addFunctor_close s hs
  | registerHandler =>
      simp only [carryOut, Session.carryOut, isSome_handlerOf hs.handler]
      split
      · rename_i hreg
        exact ⟨.refl s, by rw [← hreg], rfl⟩
      · refine ⟨.setHandler hs.constructed (.inr rfl) hs.handler, ?_, rfl⟩
        rw [session_setHandler]
        simp
  | updateHandler =>
      simp only [carryOut, Session.carryOut, isSome_handlerOf hs.handler]
      split
      · exact ⟨.refl s, rfl, rfl⟩
      · exact mirrors_fail .assertFailed s hs
  | removeHandler =>
      simp only [carryOut, Session.carryOut, isSome_handlerOf hs.handler]
      split
      · refine ⟨.setHandler hs.constructed (.inl rfl) hs.handler, ?_, rfl⟩
        rw [session_setHandler]
        rfl
      · exact mirrors_fail .assertFailed s hs
  | decConnection =>
      have hcount : Local i s { s with connectionNumber := s.connectionNumber - 1 } :=
        ⟨rfl, fun _ => rfl, fun _ => rfl, fun _ _ => rfl,
          fun ho => ⟨ho.handlers, ho.entries, ho.functors, ho.closes, ho.frames⟩, id, id, id⟩
      have hclosed := Local.setConnection (i := i)
        (s := { s with connectionNumber := s.connectionNumber - 1 })
        (fun c => { c with closed := c.closed + 1 }) rfl rfl
      refine ⟨hcount.trans hclosed, session_setConnection (i := i)
        (s := { s with connectionNumber := s.connectionNumber - 1 })
        (fun c => { c with closed := c.closed + 1 }) rfl rfl, ?_⟩
      simp only [carryOut, setConnection, Function.update_self, Nat.cast_add, Nat.cast_one]
      omega
  | shutdown => exact mirrors_socket .shutdown s hs

theorem mirrors_request (e : Effect) :
    Mirrors i (fun s : Server κ => s.request i e) fun σ => σ.request e := by
  intro s hs
  simp only [request, Session.request, isSome_fault hs.fault]
  split
  · exact ⟨.refl s, rfl, rfl⟩
  · exact mirrors_carryOut e s hs

theorem mirrors_foldl (es : List Effect) :
    Mirrors i (fun s : Server κ => es.foldl (request i) s) fun σ => es.foldl Session.request σ := by
  induction es with
  | nil => exact fun s _ => ⟨.refl s, rfl, rfl⟩
  | cons e es ih => exact (mirrors_request e).comp ih

theorem mirrors_perform (r : Result) : Mirrors i (perform (κ := κ) i r) (Session.perform r) :=
  (mirrors_setConn r.conn).comp (mirrors_foldl r.effects)

theorem mirrors_attempt (r : Except Thrown Result) :
    Mirrors i (attempt (κ := κ) i r) (Session.attempt r) := by
  cases r with
  | ok r => exact mirrors_perform r
  | error e => exact (mirrors_foldl e.effects).comp (mirrors_fail e.fault)

/-- A call through the raw `this`: the work is done only if the connection is alive. -/
theorem acts_throughThis {f : Server κ → Server κ} {g : Session κ → Session κ}
    (h : Mirrors i f g) (hfault : s.OwnFault i) (hacting : s.alive i = true → s.Acting i) :
    Acts i s (s.throughThis i f) ((s.session i).throughThis g) := by
  unfold throughThis Session.throughThis alive at *
  split
  · rename_i halive
    exact h s (hacting halive)
  · exact ⟨.fail hfault, by simp [Server.session, Server.fail, Session.fail], rfl⟩

/-- The loop of connection `i` enters or leaves a callback of the connection. -/
theorem mirrors_setFrame (f : Option Frame) :
    Mirrors i (fun s : Server κ => s.setLoop (s.connection i).loop fun l =>
        { l with frame := f.map fun f => (i, f) })
      fun σ => { σ with frame := f } := by
  intro s hs
  have hframe : ∀ m, ((s.setLoop (s.connection i).loop fun l =>
      { l with frame := f.map fun f => (i, f) }).loops m).frame
        = if m = (s.connection i).loop then f.map fun f => (i, f) else (s.loops m).frame := by
    intro m
    simp only [setLoop, Function.update_apply]
    split <;> rfl
  have hother : ∀ m, ((s.setLoop (s.connection i).loop fun l =>
      { l with frame := f.map fun f => (i, f) }).loops m).handlerMap = (s.loops m).handlerMap ∧
      ((s.setLoop (s.connection i).loop fun l =>
        { l with frame := f.map fun f => (i, f) }).loops m).queue = (s.loops m).queue := by
    intro m
    simp only [setLoop, Function.update_apply]
    split <;> simp_all
  refine ⟨⟨rfl, fun _ => rfl, fun _ => rfl, fun j hj => ?_, fun ho => ?_, fun ho => ?_, fun _ => ?_,
    id⟩, ?_, rfl⟩
  · rw [session_setFrame]
    split
    · rename_i hloop
      have hnone : (s.session j).frame = none := by
        simp only [Server.session, Option.bind_eq_none_iff]
        rintro ⟨k, f'⟩ hk
        rw [hloop] at hk
        simp [hs.callback k f' hk, Ne.symm hj]
      have hnone' : ((f.map fun f => (i, f)).bind fun (k, f) => if k = j then some f else none)
          = none := by
        rw [Option.bind_eq_none_iff]
        rintro ⟨k, f'⟩ hk
        obtain ⟨g, -, hg⟩ := Option.map_eq_some_iff.mp hk
        cases hg
        simp [Ne.symm hj]
      rw [hnone', ← hnone]
    · rfl
  · refine ⟨fun m fd k hk => ho.handlers m fd k ?_, ho.entries, fun m k g hk => ho.functors m k g ?_,
      fun m k hk => ho.closes m k ?_, fun m k g hk => ?_⟩
    · rwa [(hother m).1] at hk
    · rwa [(hother m).2] at hk
    · rwa [(hother m).2] at hk
    · rw [hframe] at hk
      split at hk
      · rename_i hm
        obtain ⟨g', -, hg⟩ := Option.map_eq_some_iff.mp hk
        cases hg
        exact ⟨hs.constructed, hm.symm⟩
      · exact ho.frames m k g hk
  · unfold OwnHandler handlerOf at ho ⊢
    rw [(hother _).1]
    exact ho
  · intro k g hk
    have hmap := (hframe (s.connection i).loop).symm.trans hk
    rw [if_pos rfl] at hmap
    obtain ⟨g', -, hg⟩ := Option.map_eq_some_iff.mp hmap
    cases hg
    rfl
  · rw [session_setFrame, if_pos rfl]
    cases f <;> simp

theorem mirrors_enter (r : Except Fault (κ × List Call)) (fromRead : Bool) :
    Mirrors i (enter (κ := κ) i r fromRead) (Session.enter r fromRead) := by
  cases r with
  | error f => exact mirrors_fail f
  | ok r =>
      obtain ⟨context, calls⟩ := r
      have hcontext : Mirrors i (setConnection i fun c : Connection κ => { c with context := context })
          fun σ => { σ with context := context } :=
        mirrors_setConnection (fun c => { c with context := context }) _ (fun _ => rfl)
          (fun _ => rfl) (fun _ => rfl) fun _ => rfl
      intro s hs
      have hacts := (hcontext.comp (mirrors_setFrame (some ⟨calls, fromRead⟩))) s hs
      simpa [enter, Session.enter, setConnection] using hacts

/-! ## Steps -/

/-- No two connections that are alive share a descriptor. -/
structure Good (s : Server κ) : Prop extends Owned s where
  distinct : ∀ i j, i < s.constructed → j < s.constructed → s.alive i = true → s.alive j = true →
    (s.connection i).fd = (s.connection j).fd → i = j
  registered : ∀ i, (s.session i).registered = true → s.alive i = true

theorem Good.ownHandler (h : s.Good) (hi : i < s.constructed) (halive : s.alive i = true) :
    s.OwnHandler i := by
  unfold OwnHandler
  cases hk : s.handlerOf i with
  | none => exact .inl rfl
  | some k =>
      right
      unfold handlerOf at hk
      obtain ⟨hkn, hfd, hloop⟩ := h.handlers _ _ _ hk
      have hreg : (s.session k).registered = true := by
        simp [session, hfd, hloop, hk]
      rw [h.distinct k i hkn hi (h.registered k hreg) halive hfd]

/-- The steps of session `i` that a step of the server stands for. -/
def sessionLabels (s : Server κ) (i : Nat) : Label ε → List (Session.Label ε)
  | .accept _ => []
  | .readable k rs env => if k = i then [.readable rs env] else []
  | .writable k w => if k = i then [.writable w] else []
  | .call j => if (s.loops j).frame.any (·.1 = i) then [.call] else []
  | .leave j => if (s.loops j).frame.any (·.1 = i) then [.leave] else []
  | .pop j =>
    (if (s.connection i).loop = j then [.popIo] else []) ++ if j = 0 then [.popBase] else []
  | .run j w env =>
    match (s.loops j).queue.front with
    | some (.io k _) => if k = i then [.runIo w env] else []
    | some (.handleConnectionClose k) => if k = i then [.runBase] else []
    | none => []
  | .done j =>
    (if (s.connection i).loop = j ∧ (s.session i).io.running = true then [.doneIo] else []) ++
      if j = 0 ∧ (s.session i).base.running = true then [.doneBase] else []

section Step

variable {user : UserCode κ ε} {context : κ}

theorem fault_session (h : s.fault = none) : (s.session i).fault = none := by
  simp [session, h]

theorem ownFault_of_alive (h : s.fault = none) : s.OwnFault i := by
  intro j f hf
  rw [h] at hf
  cases hf

theorem polling_session (h : s.polling (s.connection i).loop = true) :
    (s.session i).polling = true := by
  unfold polling at h
  rw [Bool.and_eq_true, Option.isNone_iff_eq_none] at h
  have hidle := BatchQueue.idle_filterMap (g := Functor.ioOf i) h.1
  simp [Session.polling, session, hidle, h.2]

theorem acting_of_polling (h : s.Good) (hfault : s.fault = none) (hi : i < s.constructed)
    (hpolling : s.polling (s.connection i).loop = true) (halive : s.alive i = true) :
    s.Acting i := by
  refine ⟨hi, h.ownHandler hi halive, ?_, ownFault_of_alive hfault⟩
  intro j f hf
  unfold polling at hpolling
  rw [Bool.and_eq_true, Option.isNone_iff_eq_none, hf] at hpolling
  cases hpolling.2

/-- What one acting connection does is a step of its session and no step of any
    other. -/
theorem exec_of_acts {k : Nat} {σ : Session κ} {l : Session.Label ε}
    (hacts : Acts k s s' σ) (hstep : (s.session k).step user l = some σ) (i : Nat) :
    Runs.exec (Session.step user) (s.session i) (if k = i then [l] else [])
      = some (s'.session i) := by
  split
  · rename_i hk
    subst hk
    rw [Runs.exec_cons, hstep, hacts.session]
    rfl
  · rename_i hk
    rw [Runs.exec_nil, hacts.frame.others i (Ne.symm hk)]

theorem step_fault {l : Label ε} (h : s.step user context l = some s') : s.fault = none := by
  unfold step at h
  split at h
  · cases h
  · rename_i hfault
    simpa using hfault

/-- A step of the server is a step of session `k` and of no other. -/
def StepsAs (user : UserCode κ ε) (k : Nat) (l : Session.Label ε) (s s' : Server κ) : Prop :=
  k < s.constructed ∧ ∃ σ, Acts k s s' σ ∧ (s.session k).step user l = some σ

theorem steps_readable {k : Nat} {rs : List (KernelRead TcpConnection.defaultReadBuffSize)}
    {env : ε} (hgood : s.Good) (h : s.step user context (.readable k rs env) = some s') :
    StepsAs user k (.readable rs env) s s' := by
  have hfault := step_fault h
  unfold step at h
  simp only [hfault, Option.isSome_none, Bool.false_eq_true, if_false,
    Option.ite_none_right_eq_some, Bool.and_eq_true, ready, decide_eq_true_eq] at h
  obtain ⟨⟨⟨hk, hpolling⟩, hreading⟩, h⟩ := h
  have hreading' : (s.session k).conn.eventHandler.isReading = true := hreading
  have hown := ownFault_of_alive (i := k) hfault
  have hacting : s.alive k = true → s.Acting k :=
    acting_of_polling hgood hfault hk hpolling
  have hsession : (s.session k).step user (.readable rs env)
      = (s.session k).handleRead user rs env := by
    simp [Session.step, fault_session hfault, polling_session hpolling, hreading']
  rw [StepsAs, hsession]
  unfold handleRead at h
  unfold Session.handleRead
  split at h
  · rename_i buf c hrs
    have hrs' : (s.session k).conn.handleRead rs = some (.message buf, c, []) := hrs
    simp only [hrs']
    have hmirrors : Mirrors k
        (fun t : Server κ =>
          enter k (user.message env buf (t.connection k).context) true (t.setConn k c))
        fun σ => Session.enter (user.message env buf σ.context) true { σ with conn := c } :=
      fun t ht => ((mirrors_setConn c).comp
        (mirrors_enter (user.message env buf (t.connection k).context) true)) t ht
    cases h
    exact ⟨hk, _, acts_throughThis hmirrors hown hacting, rfl⟩
  · rename_i c hrs
    have hrs' : (s.session k).conn.handleRead rs = some (.close, c, []) := hrs
    simp only [hrs']
    cases h
    exact ⟨hk, _, acts_throughThis (mirrors_perform c.close) hown hacting, rfl⟩
  · rename_i c hrs
    have hrs' : (s.session k).conn.handleRead rs = some (.error, c, []) := hrs
    simp only [hrs']
    cases h
    exact ⟨hk, _, acts_throughThis (mirrors_perform c.handleClose) hown hacting, rfl⟩
  · cases h

theorem steps_writable {k : Nat} {w : WriteOutcome} (hgood : s.Good)
    (h : s.step user context (.writable k w) = some s') :
    StepsAs user k (.writable w) s s' := by
  have hfault := step_fault h
  unfold step at h
  simp only [hfault, Option.isSome_none, Bool.false_eq_true, if_false,
    Option.ite_none_right_eq_some, Bool.and_eq_true, ready, decide_eq_true_eq,
    Option.some.injEq] at h
  obtain ⟨⟨⟨hk, hpolling⟩, hwriting⟩, rfl⟩ := h
  have hwriting' : (s.session k).conn.eventHandler.isWriting = true := hwriting
  refine ⟨hk, _, acts_throughThis (mirrors_attempt _) (ownFault_of_alive hfault)
    (acting_of_polling hgood hfault hk hpolling), ?_⟩
  simp only [Session.step, fault_session hfault, polling_session hpolling, hwriting',
    Option.isSome_none, Bool.false_eq_true, if_false, Bool.and_self, if_true]
  rfl

/-- The connection of a callback is alive: it was called with a guard. -/
theorem acting_of_frame {k : Nat} {f : Frame} {l : Nat} (hgood : s.Good) (hfault : s.fault = none)
    (hf : (s.loops l).frame = some (k, f)) :
    s.Acting k ∧ (s.connection k).loop = l ∧ (s.session k).frame = some f := by
  obtain ⟨hk, hloop⟩ := hgood.frames _ _ _ hf
  have hframe : (s.session k).frame = some f := by
    simp [session, hloop, hf]
  have halive : s.alive k = true := by
    simp [alive, Session.alive, hframe]
  refine ⟨⟨hk, hgood.ownHandler hk halive, ?_, ownFault_of_alive hfault⟩, hloop, hframe⟩
  intro j g hg
  rw [hloop, hf] at hg
  cases hg
  rfl

theorem steps_call {l : Nat} (hgood : s.Good) (h : s.step user context (.call l) = some s') :
    ∃ k f, (s.loops l).frame = some (k, f) ∧ StepsAs user k .call s s' := by
  have hfault := step_fault h
  unfold step at h
  simp only [hfault, Option.isSome_none, Bool.false_eq_true, if_false] at h
  split at h
  · rename_i k c calls fromRead hf
    obtain ⟨hacting, hloop, hframe⟩ := acting_of_frame hgood hfault hf
    subst hloop
    cases h
    refine ⟨k, _, hf, hacting.constructed, _, ((mirrors_setFrame (some ⟨calls, fromRead⟩)).comp
      (mirrors_perform (c.run (s.connection k).conn))) s hacting, ?_⟩
    simp only [Session.step, fault_session hfault, hframe, Option.isSome_none, Bool.false_eq_true,
      if_false]
    rfl
  · cases h

theorem steps_leave {l : Nat} (hgood : s.Good) (h : s.step user context (.leave l) = some s') :
    ∃ k f, (s.loops l).frame = some (k, f) ∧ StepsAs user k .leave s s' := by
  have hfault := step_fault h
  unfold step at h
  simp only [hfault, Option.isSome_none, Bool.false_eq_true, if_false] at h
  split at h
  · rename_i k fromRead hf
    obtain ⟨hacting, hloop, hframe⟩ := acting_of_frame hgood hfault hf
    subst hloop
    cases h
    cases fromRead with
    | false =>
        refine ⟨k, _, hf, hacting.constructed, _, (mirrors_setFrame none) s hacting, ?_⟩
        simp [Session.step, fault_session hfault, hframe]
    | true =>
        refine ⟨k, _, hf, hacting.constructed, _, ((mirrors_setFrame none).comp
          (mirrors_setConn (s.connection k).conn.handleReadEnd)) s hacting, ?_⟩
        simp only [Session.step, fault_session hfault, hframe, Option.isSome_none,
          Bool.false_eq_true, if_false]
        rfl
  · cases h

/-- Starting the front of a queue: the session of its connection sees it. -/
theorem acts_start {l k : Nat} {f : Functor} {σ : Session κ}
    (hfront : (s.loops l).queue.front = some f)
    (hothers : ∀ j, j ≠ k → Functor.ioOf j f = none ∧ Functor.baseOf j f = none)
    (hself : (s.setLoop l fun x => { x with queue := x.queue.start }).session k = σ) :
    Acts k s (s.setLoop l fun x => { x with queue := x.queue.start }) σ := by
  have hloops : ∀ m, ((s.setLoop l fun x => { x with queue := x.queue.start }).loops m).handlerMap
      = (s.loops m).handlerMap ∧
      ((s.setLoop l fun x => { x with queue := x.queue.start }).loops m).frame = (s.loops m).frame ∧
      ((s.setLoop l fun x => { x with queue := x.queue.start }).loops m).queue.all
        = (s.loops m).queue.all := by
    intro m
    simp only [setLoop, Function.update_apply]
    split <;> simp_all
  refine ⟨⟨rfl, fun _ => rfl, fun _ => rfl, fun j hj => ?_, fun ho => ?_, fun ho => ?_,
    fun ho => ?_, id⟩, hself, rfl⟩
  · obtain ⟨hio, hbase⟩ := hothers j hj
    rw [session_setQueue, BatchQueue.filterMap_start_none hfront hio,
      BatchQueue.filterMap_start_none hfront hbase]
    split <;> split <;> simp_all [session]
  · refine ⟨fun m fd i hi => ho.handlers m fd i ?_, ho.entries,
      fun m i g hi => ho.functors m i g ?_, fun m i hi => ho.closes m i ?_,
      fun m i g hi => ho.frames m i g ?_⟩
    · rwa [(hloops m).1] at hi
    · rwa [(hloops m).2.2] at hi
    · rwa [(hloops m).2.2] at hi
    · rwa [(hloops m).2.1] at hi
  · unfold OwnHandler handlerOf at ho ⊢
    rw [(hloops _).1]
    exact ho
  · unfold OwnFrame at ho ⊢
    rw [(hloops _).2.1]
    exact ho

theorem acts_start_io {k : Nat} {f : IoFunctor}
    (hfront : (s.loops (s.connection k).loop).queue.front = some (.io k f)) :
    Acts k s (s.setLoop (s.connection k).loop fun x => { x with queue := x.queue.start })
      { s.session k with io := (s.session k).io.start } := by
  refine acts_start hfront (fun j hj => ⟨by simp [Functor.ioOf, Ne.symm hj], rfl⟩) ?_
  have hio : Functor.ioOf k (.io k f) = some f := by simp [Functor.ioOf]
  have hbase : Functor.baseOf k (.io k f) = none := rfl
  rw [session_setQueue, BatchQueue.filterMap_start_some hfront hio,
    BatchQueue.filterMap_start_none hfront hbase, if_pos rfl]
  split
  · rename_i hzero
    simp [session, hzero]
  · rfl

theorem acts_start_base {k : Nat}
    (hfront : (s.loops 0).queue.front = some (.handleConnectionClose k)) :
    Acts k s (s.setLoop 0 fun x => { x with queue := x.queue.start })
      { s.session k with base := (s.session k).base.start } := by
  refine acts_start hfront (fun j hj => ⟨rfl, by simp [Functor.baseOf, Ne.symm hj]⟩) ?_
  have hio : Functor.ioOf k (.handleConnectionClose k) = none := rfl
  have hbase : Functor.baseOf k (.handleConnectionClose k) = some .handleConnectionClose := by
    simp [Functor.baseOf]
  rw [session_setQueue, BatchQueue.filterMap_start_none hfront hio,
    BatchQueue.filterMap_start_some hfront hbase, if_pos rfl]
  split <;> simp_all [session]

/-- `connections_.erase`, for a connection whose descriptor no other one has an
    entry for. -/
theorem acts_erase (hown : ∀ j, s.connections (s.connection k).fd = some j → j = k) :
    Acts k s { s with connections := Function.update s.connections (s.connection k).fd none }
      { s.session k with entry := false } := by
  refine ⟨⟨rfl, fun _ => rfl, fun _ => rfl, fun j hj => ?_, fun ho => ?_, id, id, id⟩, ?_, rfl⟩
  · simp only [session, Function.update_apply, Session.mk.injEq, true_and, and_true]
    split
    · rename_i hfd
      have hne : s.connections (s.connection j).fd ≠ some j := by
        rw [hfd]
        exact fun heq => hj (hown j heq)
      simp [hne]
    · rfl
  · refine ⟨ho.handlers, fun fd j hj => ho.entries fd j ?_, ho.functors, ho.closes, ho.frames⟩
    by_cases hfd : fd = (s.connection k).fd
    · subst hfd
      simp at hj
    · simpa [Function.update_of_ne hfd] using hj
  · simp [session]

theorem Good.ownEntry (h : s.Good) (hk : k < s.constructed) (halive : s.alive k = true) :
    ∀ j, s.connections (s.connection k).fd = some j → j = k := by
  intro j hj
  obtain ⟨hjn, hfd⟩ := h.entries _ _ hj
  have hentry : s.alive j = true := by
    simp [alive, Session.alive, session, hfd, hj]
  exact h.distinct j k hjn hk hentry halive hfd

theorem mem_io_of_front {f : IoFunctor}
    (hfront : (s.loops (s.connection k).loop).queue.front = some (.io k f)) :
    (s.session k).io.front = some f :=
  BatchQueue.front_filterMap hfront (by simp [Functor.ioOf])

/-- A functor bound to a `shared_ptr` finds its connection alive. -/
theorem alive_of_front {f : IoFunctor} (hf : f.holds = true)
    (hfront : (s.loops (s.connection k).loop).queue.front = some (.io k f)) :
    s.alive k = true := by
  have hmem := BatchQueue.mem_all_of_front (mem_io_of_front hfront)
  have hany : (s.session k).io.all.any IoFunctor.holds = true := List.any_eq_true.mpr ⟨f, hmem, hf⟩
  simp [alive, Session.alive, hany]

theorem steps_run_io {l : Nat} {f : IoFunctor} {w : WriteOutcome} {env : ε} (hgood : s.Good)
    (hfront : (s.loops l).queue.front = some (.io k f))
    (h : s.step user context (.run l w env) = some s') :
    StepsAs user k (.runIo w env) s s' := by
  have hfault := step_fault h
  obtain ⟨hk, rfl⟩ := hgood.functors _ _ _ (BatchQueue.mem_all_of_front hfront)
  unfold step at h
  simp only [hfault, Option.isSome_none, Bool.false_eq_true, if_false] at h
  split at h
  · rename_i g hframe hfront'
    obtain rfl : .io k f = g := by
      rw [hfront] at hfront'
      exact Option.some.inj hfront'
    have hown : s.OwnFrame k := by
      intro j g hg
      rw [hframe] at hg
      cases hg
    have hacting : s.alive k = true → s.Acting k := fun halive =>
      ⟨hk, hgood.ownHandler hk halive, hown, ownFault_of_alive hfault⟩
    have hstart := acts_start_io hfront
    have hsession : (s.session k).step user (.runIo w env)
        = some (Session.runIo user f w env { s.session k with io := (s.session k).io.start }) := by
      have hframe' : (s.session k).frame = none := by simp [session, hframe]
      simp only [Session.step, fault_session hfault, hframe', mem_io_of_front hfront,
        Option.isSome_none, Bool.false_eq_true, if_false]
    refine ⟨hk, _, ?_, hsession⟩
    cases h
    generalize hs₁ : (s.setLoop (s.connection k).loop fun l => { l with queue := l.queue.start })
      = s₁ at hstart ⊢
    have hconn : s₁.connection k = s.connection k := by rw [← hs₁]; rfl
    suffices hsuffices : Acts k s₁ (runFunctor user w env s₁ (.io k f))
        (Session.runIo user f w env (s₁.session k)) by
      refine ⟨hstart.frame.trans hsuffices.frame, ?_, hsuffices.number.trans hstart.number⟩
      rw [hsuffices.session, hstart.session]
    have hacting₁ : s₁.alive k = true → s₁.Acting k := by
      intro halive
      refine (hacting ?_).local hstart.frame
      unfold alive at halive ⊢
      rw [hstart.session] at halive
      exact halive
    have hholds : f.holds = true → s₁.Acting k := fun hf =>
      (hacting (alive_of_front hf hfront)).local hstart.frame
    cases f with
    | handleConnection =>
        exact ((mirrors_perform _).comp (mirrors_enter _ false)) s₁ (hholds rfl)
    | writeInLoop data =>
        have hown₁ : s₁.OwnFault k := hstart.frame.fault (ownFault_of_alive hfault)
        exact acts_throughThis (mirrors_attempt _) hown₁ hacting₁
    | writeComplete buf => exact mirrors_enter _ false s₁ (hholds rfl)
    | closeConnection => exact mirrors_perform _ s₁ (hholds rfl)
  · cases h

theorem steps_run_base {l : Nat} {w : WriteOutcome} {env : ε} (hgood : s.Good)
    (hfront : (s.loops l).queue.front = some (.handleConnectionClose k))
    (h : s.step user context (.run l w env) = some s') :
    StepsAs user k .runBase s s' := by
  have hfault := step_fault h
  obtain ⟨hk, rfl⟩ := hgood.closes _ _ (BatchQueue.mem_all_of_front hfront)
  have hbase : (s.session k).base.front = some .handleConnectionClose :=
    BatchQueue.front_filterMap hfront (by simp [Functor.baseOf])
  have halive : s.alive k = true := by
    have hmem := BatchQueue.mem_all_of_front hbase
    have hne : (s.session k).base.all ≠ [] := List.ne_nil_of_mem hmem
    simp [alive, Session.alive, hne]
  unfold step at h
  simp only [hfault, Option.isSome_none, Bool.false_eq_true, if_false] at h
  split at h
  · rename_i g hframe hfront'
    obtain rfl : .handleConnectionClose k = g := by
      rw [hfront] at hfront'
      exact Option.some.inj hfront'
    have hsession : (s.session k).step user .runBase
        = some (Session.handleConnectionClose
            { s.session k with base := (s.session k).base.start }) := by
      simp only [Session.step, fault_session hfault, hbase, Option.isSome_none,
        Bool.false_eq_true, if_false]
    refine ⟨hk, _, ?_, hsession⟩
    cases h
    have hstart := acts_start_base hfront
    have herase : Acts k (s.setLoop 0 fun l => { l with queue := l.queue.start }) _ _ :=
      acts_erase (hgood.ownEntry hk halive)
    have hpush := acts_addFunctor_io (s := { s.setLoop 0 fun l => { l with queue := l.queue.start }
      with connections := Function.update s.connections (s.connection k).fd none })
      .closeConnection hk
    refine ⟨(hstart.frame.trans herase.frame).trans hpush.frame, ?_,
      hpush.number.trans (herase.number.trans hstart.number)⟩
    have herased : ({ s.setLoop 0 fun l => { l with queue := l.queue.start }
        with connections := Function.update s.connections (s.connection k).fd none }).session k
        = { s.session k with base := (s.session k).base.start, entry := false } := by
      refine herase.session.trans ?_
      rw [hstart.session]
    refine hpush.session.trans ?_
    rw [herased]
    rfl
  · cases h

theorem steps_run {l : Nat} {w : WriteOutcome} {env : ε} (hgood : s.Good)
    (h : s.step user context (.run l w env) = some s') :
    (∃ k f, (s.loops l).queue.front = some (.io k f) ∧ StepsAs user k (.runIo w env) s s') ∨
      ∃ k, (s.loops l).queue.front = some (.handleConnectionClose k) ∧
        StepsAs user k .runBase s s' := by
  cases hfront : (s.loops l).queue.front with
  | none =>
      have hfault := step_fault h
      unfold step at h
      simp only [hfault, hfront, Option.isSome_none, Bool.false_eq_true, if_false] at h
      split at h <;> simp_all
  | some f =>
      cases f with
      | io k f => exact .inl ⟨k, f, rfl, steps_run_io hgood hfront h⟩
      | handleConnectionClose k => exact .inr ⟨k, rfl, steps_run_base hgood hfront h⟩

/-! ## Taking and dropping functors -/

theorem session_popAll (l : Nat) :
    (s.setLoop l fun x => { x with queue := x.queue.popAll }).session j =
      { s.session j with
        io := if (s.connection j).loop = l then (s.session j).io.popAll else (s.session j).io
        base := if l = 0 then (s.session j).base.popAll else (s.session j).base } := by
  rw [session_setQueue, BatchQueue.filterMap_popAll, BatchQueue.filterMap_popAll]
  split <;> split <;> simp_all [session]

theorem session_finish (l : Nat) (h : (s.loops l).queue.running = true) :
    (s.setLoop l fun x => { x with queue := x.queue.finish }).session j =
      { s.session j with
        io := if (s.connection j).loop = l ∧ (s.session j).io.running = true then
            (s.session j).io.finish else (s.session j).io
        base := if l = 0 ∧ (s.session j).base.running = true then (s.session j).base.finish
          else (s.session j).base } := by
  rw [session_setQueue, BatchQueue.filterMap_finish h, BatchQueue.filterMap_finish h]
  simp only [Session.mk.injEq, true_and, and_true]
  constructor
  · by_cases hl : (s.connection j).loop = l
    · subst hl
      simp [session]
    · simp [hl]
  · by_cases hl : l = 0
    · subst hl
      simp [session]
    · simp [hl]

theorem exec_pop {l : Nat} (i : Nat) (h : s.step user context (.pop l) = some s') :
    Runs.exec (Session.step user) (s.session i) (s.sessionLabels i (.pop l : Label ε))
      = some (s'.session i) := by
  have hfault := step_fault h
  unfold step at h
  simp only [hfault, Option.isSome_none, Bool.false_eq_true, if_false,
    Option.ite_none_right_eq_some, Option.some.injEq] at h
  obtain ⟨hpolling, rfl⟩ := h
  have hidle : (s.loops l).queue.idle = true := by
    unfold polling at hpolling
    rw [Bool.and_eq_true] at hpolling
    exact hpolling.1
  have hbase : l = 0 → (s.session i).base.idle = true := by
    rintro rfl
    exact BatchQueue.idle_filterMap hidle
  have hio : (s.connection i).loop = l → (s.session i).polling = true := by
    rintro rfl
    exact polling_session hpolling
  have hnone := fault_session (i := i) hfault
  rw [session_popAll]
  unfold sessionLabels
  by_cases hloop : (s.connection i).loop = l <;> by_cases hzero : l = 0
  · simp [Session.step, hloop, hzero, hnone, hio hloop, hbase hzero]
  · simp [Session.step, hloop, hzero, hnone, hio hloop]
  · simp only [if_neg hloop, if_pos hzero, List.nil_append]
    simp [Session.step, hnone, hbase hzero]
  · simp [hloop, hzero]

theorem exec_done {l : Nat} (i : Nat) (h : s.step user context (.done l) = some s') :
    Runs.exec (Session.step user) (s.session i) (s.sessionLabels i (.done l : Label ε))
      = some (s'.session i) := by
  have hfault := step_fault h
  unfold step at h
  simp only [hfault, Option.isSome_none, Bool.false_eq_true, if_false,
    Option.ite_none_right_eq_some, Bool.and_eq_true, Option.isNone_iff_eq_none,
    Option.some.injEq] at h
  obtain ⟨⟨hrunning, hframe⟩, rfl⟩ := h
  have hnone := fault_session (i := i) hfault
  have hframe' : (s.connection i).loop = l → (s.session i).frame = none := by
    rintro rfl
    simp [session, hframe]
  rw [session_finish l hrunning]
  unfold sessionLabels
  by_cases hio : (s.connection i).loop = l ∧ (s.session i).io.running = true <;>
    by_cases hbase : l = 0 ∧ (s.session i).base.running = true
  · simp only [if_pos hio, if_pos hbase]
    simp [Session.step, hnone, hframe' hio.1, hio.2, hbase.2]
  · simp only [if_pos hio, if_neg hbase]
    simp [Session.step, hnone, hframe' hio.1, hio.2]
  · simp only [if_neg hio, if_pos hbase]
    simp [Session.step, hnone, hbase.2]
  · simp only [if_neg hio, if_neg hbase]
    simp

/-- A queue that loses entries keeps what belongs to whom. -/
theorem owned_setQueue {l : Nat} {g : BatchQueue Functor → BatchQueue Functor} (ho : s.Owned)
    (hg : (g (s.loops l).queue).all ⊆ (s.loops l).queue.all) :
    (s.setLoop l fun x => { x with queue := g x.queue }).Owned := by
  have hloops : ∀ m, ((s.setLoop l fun x => { x with queue := g x.queue }).loops m).handlerMap
      = (s.loops m).handlerMap ∧
      ((s.setLoop l fun x => { x with queue := g x.queue }).loops m).frame = (s.loops m).frame ∧
      ((s.setLoop l fun x => { x with queue := g x.queue }).loops m).queue.all
        ⊆ (s.loops m).queue.all := by
    intro m
    simp only [setLoop, Function.update_apply]
    split
    · rename_i hm
      subst hm
      exact ⟨rfl, rfl, hg⟩
    · exact ⟨rfl, rfl, List.Subset.refl _⟩
  refine ⟨fun m fd i hi => ho.handlers m fd i ?_, ho.entries,
    fun m i f hi => ho.functors m i f ((hloops m).2.2 hi),
    fun m i hi => ho.closes m i ((hloops m).2.2 hi), fun m i f hi => ho.frames m i f ?_⟩
  · rwa [(hloops m).1] at hi
  · rwa [(hloops m).2.1] at hi

/-! ## A new connection -/

theorem fdFree_iff {fd : Nat} :
    s.fdFree fd = true ↔ ∀ i < s.constructed, s.alive i = true → (s.connection i).fd ≠ fd := by
  simp [fdFree, imp_iff_not_or]

/-- The sessions of the connections that are there do not see a new one. -/
theorem session_handleNewCon_of_lt {fd : Nat} (hfree : s.fdFree fd = true)
    (hi : i < s.constructed) : (s.handleNewCon context fd).session i = s.session i := by
  have hne : i ≠ s.constructed := hi.ne
  unfold handleNewCon
  dsimp only
  rw [session_addFunctor_io_of_ne _ _ hne]
  simp only [session, Function.update_of_ne hne, Session.mk.injEq, true_and, and_true]
  by_cases hfd : (s.connection i).fd = fd
  · have hentry : s.connections fd ≠ some i := by
      intro heq
      have halive : s.alive i = true := by
        simp [alive, Session.alive, session, hfd, heq]
      exact fdFree_iff.mp hfree i hi halive hfd
    simp [hfd, hentry, Ne.symm hne]
  · rw [Function.update_of_ne hfd]

theorem session_handleNewCon {fd : Nat} (ho : s.Owned) (hfault : s.fault = none) :
    (s.handleNewCon context fd).session s.constructed = Session.start context := by
  have hio : ∀ m, (s.loops m).queue.filterMap (Functor.ioOf s.constructed) = .empty := by
    intro m
    refine BatchQueue.filterMap_eq_empty fun a ha => ?_
    cases a with
    | io i f => simp [Functor.ioOf, (ho.functors m i f ha).1.ne]
    | handleConnectionClose i => rfl
  have hbase : (s.loops 0).queue.filterMap (Functor.baseOf s.constructed) = .empty := by
    refine BatchQueue.filterMap_eq_empty fun a ha => ?_
    cases a with
    | io i f => rfl
    | handleConnectionClose i => simp [Functor.baseOf, (ho.closes 0 i ha).1.ne]
  have hframe : ∀ m, ((s.loops m).frame.bind fun (j, f) =>
      if j = s.constructed then some f else none) = none := by
    intro m
    rw [Option.bind_eq_none_iff]
    rintro ⟨j, f⟩ hj
    simp [(ho.frames m j f hj).1.ne]
  have hhandler : ∀ m, ((s.loops m).handlerMap fd == some s.constructed) = false := by
    intro m
    rw [beq_eq_false_iff_ne]
    exact fun heq => (ho.handlers m fd _ heq).1.ne rfl
  unfold handleNewCon
  dsimp only
  generalize hnext : s.getNextLoop = next
  obtain ⟨l, curPos⟩ := next
  have hadd := session_addFunctor_io (i := s.constructed) (s :=
    { s with
      constructed := s.constructed + 1
      connection := Function.update s.connection s.constructed ⟨.new, context, fd, l, 0, []⟩
      connections := Function.update s.connections fd (some s.constructed)
      curPos := curPos
      connectionNumber := s.connectionNumber + 1 }) .handleConnection
  simp only [Function.update_self] at hadd
  rw [hadd]
  simp [session, Session.start, hio, hbase, hframe, hhandler, hfault]

theorem owned_handleNewCon {fd : Nat} (ho : s.Owned) : (s.handleNewCon context fd).Owned := by
  unfold handleNewCon
  dsimp only
  generalize s.getNextLoop = next
  obtain ⟨l, curPos⟩ := next
  have hold : ∀ i < s.constructed, Function.update s.connection s.constructed
      (⟨.new, context, fd, l, 0, []⟩ : Connection κ) i = s.connection i :=
    fun i hi => Function.update_of_ne hi.ne _ _
  refine ⟨fun m fd' i hi => ?_, fun fd' i hi => ?_, fun m i f hi => ?_, fun m i hi => ?_,
    fun m i f hi => ?_⟩
  · obtain ⟨hn, hfd, hloop⟩ := ho.handlers m fd' i (by simpa using hi)
    exact ⟨Nat.lt_succ_of_lt hn, by simpa [hold i hn] using hfd, by simpa [hold i hn] using hloop⟩
  · by_cases hfd : fd' = fd
    · subst hfd
      obtain rfl : s.constructed = i := by simpa [addFunctor, setLoop] using hi
      exact ⟨Nat.lt_succ_self _, by simp⟩
    · obtain ⟨hn, hfd'⟩ := ho.entries fd' i (by
        simpa [addFunctor, setLoop, Function.update_of_ne hfd] using hi)
      exact ⟨Nat.lt_succ_of_lt hn, by simpa [hold i hn] using hfd'⟩
  · rcases mem_queue_addFunctor.mp hi with hmem | ⟨hm, hnew⟩
    · obtain ⟨hn, hloop⟩ := ho.functors m i f hmem
      exact ⟨Nat.lt_succ_of_lt hn, by simpa [hold i hn] using hloop⟩
    · cases hnew
      exact ⟨Nat.lt_succ_self _, by simp [hm]⟩
  · rcases mem_queue_addFunctor.mp hi with hmem | ⟨-, hnew⟩
    · exact ⟨Nat.lt_succ_of_lt (ho.closes m i hmem).1, (ho.closes m i hmem).2⟩
    · cases hnew
  · obtain ⟨hn, hloop⟩ := ho.frames m i f (by simpa using hi)
    exact ⟨Nat.lt_succ_of_lt hn, by simpa [hold i hn] using hloop⟩

/-! ## Every step -/

theorem step_accept {fd : Nat} (h : s.step user context (.accept fd) = some s') :
    s' = s ∨ s.fdFree fd = true ∧ s' = s.handleNewCon context fd := by
  have hfault := step_fault h
  unfold step at h
  simp only [hfault, Option.isSome_none, Bool.false_eq_true, if_false,
    Option.ite_none_right_eq_some, Bool.and_eq_true] at h
  obtain ⟨⟨-, hfree⟩, h⟩ := h
  split at h
  · exact .inl (Option.some.inj h).symm
  · exact .inr ⟨hfree, (Option.some.inj h).symm⟩

/-- The work of a step: nothing but functor queues changes, or it is the work
    for one connection, or there is a new connection. -/
theorem step_cases {l : Label ε} (hgood : s.Good) (h : s.step user context l = some s') :
    (s' = s ∧ ∃ fd, l = .accept fd) ∨
      (∃ fd, l = .accept fd ∧ s.fdFree fd = true ∧ s' = s.handleNewCon context fd) ∨
      (∃ k l', StepsAs user k l' s s' ∧ ∀ i, s.sessionLabels i l = if k = i then [l'] else []) ∨
      (∃ j, l = .pop j) ∨ ∃ j, l = .done j := by
  cases l with
  | accept fd =>
      rcases step_accept h with rfl | ⟨hfree, rfl⟩
      · exact .inl ⟨rfl, fd, rfl⟩
      · exact .inr (.inl ⟨fd, rfl, hfree, rfl⟩)
  | readable k rs env =>
      exact .inr (.inr (.inl ⟨k, _, steps_readable hgood h, fun _ => rfl⟩))
  | writable k w => exact .inr (.inr (.inl ⟨k, _, steps_writable hgood h, fun _ => rfl⟩))
  | call j =>
      obtain ⟨k, f, hf, hsteps⟩ := steps_call hgood h
      exact .inr (.inr (.inl ⟨k, _, hsteps, fun i => by simp [sessionLabels, hf]⟩))
  | leave j =>
      obtain ⟨k, f, hf, hsteps⟩ := steps_leave hgood h
      exact .inr (.inr (.inl ⟨k, _, hsteps, fun i => by simp [sessionLabels, hf]⟩))
  | pop j => exact .inr (.inr (.inr (.inl ⟨j, rfl⟩)))
  | run j w env =>
      rcases steps_run hgood h with ⟨k, f, hfront, hsteps⟩ | ⟨k, hfront, hsteps⟩
      · exact .inr (.inr (.inl ⟨k, _, hsteps, fun i => by simp [sessionLabels, hfront]⟩))
      · exact .inr (.inr (.inl ⟨k, _, hsteps, fun i => by simp [sessionLabels, hfront]⟩))
  | done j => exact .inr (.inr (.inr (.inr ⟨j, rfl⟩)))

/-- A step of the server is, for every connection that is there, a run of its
    session. -/
theorem step_session {l : Label ε} (hgood : s.Good) (h : s.step user context l = some s')
    (hi : i < s.constructed) :
    Runs.exec (Session.step user) (s.session i) (s.sessionLabels i l) = some (s'.session i) := by
  rcases step_cases hgood h with ⟨rfl, fd, rfl⟩ | ⟨fd, rfl, hfree, rfl⟩ |
    ⟨k, l', ⟨-, σ, hacts, hσ⟩, hlabels⟩ | ⟨j, rfl⟩ | ⟨j, rfl⟩
  · rfl
  · rw [session_handleNewCon_of_lt hfree hi]
    rfl
  · rw [hlabels i]
    exact exec_of_acts hacts hσ i
  · exact exec_pop i h
  · exact exec_done i h

end Step

end Server

end QGServer
