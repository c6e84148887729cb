import Mathlib.Data.List.Basic
import Mathlib.Logic.Function.Basic
import Yaos.Fault

set_option autoImplicit false

/-! # Promises (`module/lua/yaos/promise.c`)

A promise is a Lua table. `lua_new_promise` calls its executor with two closures, `my_resolve` and
`my_reject`, which find their `done` flag and their promise through two slots of the Lua registry. A
settled promise runs the handlers that `next` has put on it.

A handler is what it returns or throws for a value, and it runs inside the call that settles the
promise. The calls that an executor makes are steps of their own, up to the step that ends it. The
registry is that of LuaJIT: slot 0 heads the list of the free slots. -/

namespace Yaos.Lua

/-- A Lua value. -/
inductive Value
  | nil
  | num (n : Nat)
  /-- A table with a function `next`. -/
  | promise (p : Nat)
  /-- Any other value. -/
  | other (n : Nat)
deriving DecidableEq, Repr

/-- `lua_tointeger`. -/
def Value.toInteger : Value → Nat
  | .num n => n
  | _ => 0

/-- `is_promise`. -/
def Value.isPromise : Value → Bool
  | .promise _ => true
  | _ => false

/-- What a function does with its argument: it throws or returns. -/
abbrev Fn := Value → Except Value Value

/-- `_state`. -/
inductive PState
  | pending
  | resolved
  | rejected
  | resolving
deriving DecidableEq, Repr

/-- A `Handler`. -/
structure Deferred where
  onFulfilled : Option Fn
  onRejected : Option Fn
  promise : Nat

/-- The handler for a promise that is no longer pending. -/
def Deferred.selected (d : Deferred) (state : PState) : Option Fn :=
  if state = .resolved then d.onFulfilled else d.onRejected

/-- `_deferreds` for each `_deferredState`. -/
inductive Deferreds
  | zero
  | one (d : Option Deferred)
  | table (ds : List Deferred)

/-- The handlers that wait. -/
def Deferreds.toList : Deferreds → List Deferred
  | .zero => []
  | .one d => d.toList
  | .table ds => ds

/-- The fields of the table, with the slots of its callbacks. -/
structure Promise where
  state : PState
  value : Value
  deferreds : Deferreds
  /-- The slots `index` and `promise` that its callbacks have as upvalues. -/
  refs : Option (Nat × Nat)

/-- What a slot of the registry was taken for. -/
inductive Owner
  | flag (p : Nat)
  | self (p : Nat)
  /-- For the error handler of the call with this number. -/
  | handler (call : Nat)
  | foreign
deriving DecidableEq, Repr

/-- A call of a handler, named by the promise that `next` made for it. -/
structure HandlerCall where
  promise : Nat
  state : PState
  value : Value
deriving DecidableEq, Repr

/-- The promises, the registry and what the run has done. -/
structure State where
  promises : Nat → Promise
  /-- The promises are those below this number. -/
  count : Nat
  slots : Nat → Value
  len : Nat
  /-- `L->status == LUA_ERRERR`: an error handler is running. -/
  errerr : Bool
  /-- The promises whose executors are running, the innermost first. -/
  running : List Nat
  /-- Who holds a slot, and how often the callbacks and handlers have used a slot that they did not
      hold. -/
  owner : Nat → Option Owner
  misuses : Nat
  /-- The promises whose resolve callback has been called. -/
  called : Nat → Bool
  /-- How often a promise was settled, and how often a callback has settled anything else. -/
  settles : Nat → Nat
  strays : Nat
  thrown : Nat
  calls : List HandlerCall

/-- How a C function comes back: it returns, or an error is thrown through it. -/
inductive Ret (α : Type)
  | ret (a : α) (s : State)
  | raise (e : Value) (s : State)
  | fault (f : Fault)

/-- What is done once a call has returned. -/
def Ret.andThen {α β : Type} : Ret α → (α → State → Ret β) → Ret β
  | .ret a s, k => k a s
  | .raise e s, _ => .raise e s
  | .fault f, _ => .fault f

/-- The message of an error that Lua itself throws. -/
def luaError : Value := .other 0

/-! ## The registry -/

/-- `luaL_ref` of a value that is not nil. -/
def State.ref (s : State) (o : Owner) (v : Value) : Nat × State :=
  let free := (s.slots 0).toInteger
  if free ≠ 0 then
    let slots := Function.update s.slots 0 (s.slots free)
    (free, { s with slots := Function.update slots free v, owner := Function.update s.owner free (some o) })
  else
    let r := s.len + 1
    (r, { s with
          slots := Function.update s.slots r v
          len := r
          owner := Function.update s.owner r (some o) })

/-- A slot is used on behalf of `o`. -/
def State.use (s : State) (o : Owner) (r : Nat) : State :=
  if s.owner r = some o then s else { s with misuses := s.misuses + 1 }

/-- `luaL_unref`. -/
def State.unref (s : State) (o : Owner) (r : Nat) : State :=
  let s := s.use o r
  { s with
    slots := Function.update (Function.update s.slots r (s.slots 0)) 0 (.num r)
    owner := Function.update s.owner r none }

/-- `lua_rawseti` of a slot. -/
def State.rawseti (s : State) (o : Owner) (r : Nat) (v : Value) : State :=
  let s := s.use o r
  { s with slots := Function.update s.slots r v }

/-! ## Settling a promise -/

/-- A promise is changed. -/
def State.setPromise (s : State) (p : Nat) (x : Promise) : State :=
  { s with promises := Function.update s.promises p x }

/-- `_state` and `_value` are written. -/
def State.settle (s : State) (p : Nat) (state : PState) (v : Value) : State :=
  { s.setPromise p { s.promises p with state := state, value := v } with
    settles := Function.update s.settles p (s.settles p + 1) }

/-- `_deferreds` is written. -/
def State.setDeferreds (s : State) (p : Nat) (ds : Deferreds) : State :=
  s.setPromise p { s.promises p with deferreds := ds }

/-- `while (state == RESOLVING)` of `handle`. A loop that meets more promises than there are never
    ends. -/
def State.follow (s : State) : Nat → Nat → Option Nat
  | 0, _ => none
  | fuel + 1, p =>
      if (s.promises p).state = .resolving then
        match (s.promises p).value with
        | .promise q => s.follow fuel q
        | _ => none
      else some p

/-- The branch of `handle` for a pending promise, with the number of values that it leaves on the
    stack. -/
def State.register (s : State) (q : Nat) (deferred : Option Deferred) : Nat × State :=
  match (s.promises q).deferreds with
  | .zero => (0, s.setDeferreds q (.one deferred))
  | .one d => (0, s.setDeferreds q (.table (d.toList ++ deferred.toList)))
  | .table ds => (1, s.setDeferreds q (.table (ds ++ deferred.toList)))

/-- `while (lua_next(L, index))` of `finale`. A value that `handle` leaves on the stack stands where
    `lua_next` takes its key from. -/
def finaleLoop (handle : Deferred → State → Ret Nat) : List Deferred → State → Ret Unit
  | [], s => .ret () s
  | d :: ds, s =>
      (handle d s).andThen fun extra s =>
        if extra = 0 then finaleLoop handle ds s else .raise luaError s

/-- A handler is called, with a slot for its error handler. -/
def State.callHandler (s : State) (q : Nat) (d : Deferred) : Nat × State :=
  let x := s.promises q
  let (r, s) := s.ref (.handler s.calls.length) (.promise q)
  (r, { s with calls := s.calls ++ [{ promise := d.promise, state := x.state, value := x.value }] })

/-- Each call takes one unit of the C stack. -/
def stackOverflow {α : Type} : Ret α := .fault (.panic "stack overflow")

mutual

/-- `lua_rawset` takes a value that is not a table for the address of one. -/
def resolve : Nat → Value → Value → State → Ret Unit
  | 0, _, _, _ => stackOverflow
  | n + 1, .promise p, v, s =>
      finale n p (s.settle p (if v.isPromise then .resolving else .resolved) v)
  | _ + 1, _, v, s => if v.isPromise then .raise luaError s else .fault .null
termination_by structural n => n

/-- `reject`. -/
def reject : Nat → Value → Value → State → Ret Unit
  | 0, _, _, _ => stackOverflow
  | n + 1, .promise p, v, s => finale n p (s.settle p .rejected v)
  | _ + 1, _, _, s => .raise luaError s
termination_by structural n => n

/-- `finale`: the handlers that wait are called. -/
def finale : Nat → Nat → State → Ret Unit
  | 0, _, _ => stackOverflow
  | n + 1, p, s =>
      match (s.promises p).deferreds with
      | .zero => .ret () s
      | .one d => (handle n p d s).andThen fun _ s => .ret () (s.setDeferreds p (.one none))
      | .table ds => finaleLoop (fun d s => handle n p (some d) s) ds s
termination_by structural n => n

/-- The result is the number of values left on the stack. -/
def handle : Nat → Nat → Option Deferred → State → Ret Nat
  | 0, _, _, _ => stackOverflow
  | n + 1, p, deferred, s =>
      match s.follow (s.count + 1) p with
      | none => .fault .hang
      | some q =>
          if (s.promises q).state = .pending then
            let (extra, s) := s.register q deferred
            .ret extra s
          else (handleResolved n q deferred s).andThen fun _ s => .ret 0 s
termination_by structural n => n

/-- An error that a handler throws is thrown to `error_handle`, unless an error handler is running. -/
def handleResolved : Nat → Nat → Option Deferred → State → Ret Unit
  | 0, _, _, _ => stackOverflow
  | _ + 1, _, none, s => .raise luaError s
  | n + 1, q, some d, s =>
      let x := s.promises q
      match d.selected x.state with
      | none =>
          if x.state = .resolved then resolve n (.promise d.promise) x.value s
          else reject n (.promise d.promise) x.value s
      | some f =>
          let call := s.calls.length
          let (r, s) := s.callHandler q d
          match f x.value with
          | .ok v => resolve n (.promise d.promise) v s
          | .error e =>
              let s := { s with thrown := s.thrown + 1 }
              if s.errerr then .ret () { s with errerr := false }
              else
                (errorHandle n call r e { s with errerr := true }).andThen fun _ s =>
                  .ret () { s with errerr := false }
termination_by structural n => n

/-- An error in `error_handle` itself ends the call, unless an inner error has reset the status. -/
def errorHandle : Nat → Nat → Nat → Value → State → Ret Unit
  | 0, _, _, _, _ => stackOverflow
  | n + 1, call, r, e, s =>
      match reject n (s.slots r) e (s.use (.handler call) r) with
      | .ret _ s => .ret () (s.unref (.handler call) r)
      | .raise e s =>
          if s.errerr then .ret () s else errorHandle n call r e { s with errerr := true }
      | .fault f => .fault f
termination_by structural n => n

end

/-! ## Calls from Lua -/

/-- `lua_new_promise` up to the executor. -/
def State.newPromise (s : State) : Nat × State :=
  let p := s.count
  (p, { s.setPromise p { state := .pending, value := .nil, deferreds := .zero, refs := none } with
        count := p + 1 })

/-- `doResolve` up to the call of the executor. -/
def State.startExecutor (s : State) (p : Nat) : State :=
  let (index, s) := s.ref (.flag p) (.num 0)
  let (self, s) := s.ref (.self p) (.promise p)
  { s.setPromise p { s.promises p with refs := some (index, self) } with running := p :: s.running }

/-- The executor has thrown. The function that `reject` is then called with is the executor and not the
    promise, so that Lua throws another error, through `lua_new_promise`. -/
def State.executorThrows (s : State) (p : Nat) : State :=
  match (s.promises p).refs with
  | none => s
  | some (index, _) =>
      let s := s.use (.flag p) index
      if (s.slots index).toInteger = 0 then s.rawseti (.flag p) index (.num 1) else s

/-- A callback of `p` finds `self` in its slot. -/
def State.aim (s : State) (p : Nat) (self : Value) : State :=
  if self = .promise p then s else { s with strays := s.strays + 1 }

section Calls

variable (depth : Nat)

/-- `my_resolve`. It gives back its slots each time. -/
def myResolve (p : Nat) (v : Value) (s : State) : Ret Unit :=
  match (s.promises p).refs with
  | none => .ret () s
  | some (index, self) =>
      let s := s.use (.flag p) index
      let done : Ret Unit :=
        if (s.slots index).toInteger ≠ 0 then .ret () s
        else
          let s := (s.rawseti (.flag p) index (.num 1)).use (.self p) self
          resolve depth (s.slots self) v (s.aim p (s.slots self))
      done.andThen fun _ s => .ret () ((s.unref (.flag p) index).unref (.self p) self)

/-- `my_reject`. It gives back no slot. -/
def myReject (p : Nat) (v : Value) (s : State) : Ret Unit :=
  match (s.promises p).refs with
  | none => .ret () s
  | some (index, self) =>
      let s := s.use (.flag p) index
      if (s.slots index).toInteger ≠ 0 then .ret () s
      else
        let s := (s.rawseti (.flag p) index (.num 1)).use (.self p) self
        reject depth (s.slots self) v (s.aim p (s.slots self))

/-- The stack is, from its top, what `handle` has left, its two arguments, the handler and the new
    promise. -/
def thennext (p : Nat) (onFulfilled onRejected : Option Fn) (s : State) : Ret Value :=
  let (d, s) := s.newPromise
  let handler : Deferred := { onFulfilled := onFulfilled, onRejected := onRejected, promise := d }
  (handle depth p (some handler) s).andThen fun extra s =>
    let stack := List.replicate extra (.promise p) ++ [.other 1, .promise p, .other 1, .promise d]
    .ret ((stack.drop 3).headD .nil) s

/-- What Lua code does. -/
inductive Step
  /-- `yaos.promise(executor)`, up to the first call of the executor. -/
  | new
  /-- `yaos.promise()`. -/
  | plain
  /-- The innermost executor returns or throws. -/
  | leave
  | throw
  | resolve (p : Nat) (v : Value)
  | reject (p : Nat) (v : Value)
  | next (p : Nat) (onFulfilled onRejected : Option Fn)
  /-- Other code takes a slot of the registry or gives one back. -/
  | ref (v : Value)
  | unref (r : Nat)

/-- An error that comes out of a call is caught by the code that has made it. -/
def Ret.caught {α : Type} : Ret α → Except Fault State
  | .ret _ s => .ok s
  | .raise _ s => .ok s
  | .fault f => .error f

/-- The resolve callback of `p` has been called. -/
def State.markCalled (s : State) (p : Nat) : State :=
  { s with called := Function.update s.called p true }

/-- Lua code has only promises that exist. -/
def State.Exists (s : State) (v : Value) : Prop := ∀ p, v = .promise p → p < s.count

instance (s : State) (v : Value) : Decidable (s.Exists v) :=
  match v with
  | .nil => isTrue fun _ h => absurd h (by simp)
  | .num _ => isTrue fun _ h => absurd h (by simp)
  | .other _ => isTrue fun _ h => absurd h (by simp)
  | .promise p => decidable_of_iff (p < s.count) (by simp [State.Exists])

/-- One step. -/
def step (s : State) : Step → Except Fault State
  | .new =>
      let (p, s) := s.newPromise
      .ok (s.startExecutor p)
  | .plain => .ok s.newPromise.2
  | .leave => .ok { s with running := s.running.tail }
  | .throw =>
      match s.running with
      | [] => .ok s
      | p :: rest => .ok { s.executorThrows p with running := rest }
  | .resolve p v =>
      if s.Exists v ∧ (s.promises p).refs.isSome then do
        let s ← (myResolve depth p v s).caught
        .ok (s.markCalled p)
      else .ok s
  | .reject p v => if s.Exists v then (myReject depth p v s).caught else .ok s
  | .next p f g => if p < s.count then (thennext depth p f g s).caught else .ok s
  | .ref v => if s.Exists v ∧ v ≠ .nil then .ok (s.ref .foreign v).2 else .ok s
  | .unref r => if s.owner r = some .foreign then .ok (s.unref .foreign r) else .ok s

/-- A run. -/
def steps (s : State) (cs : List Step) : Except Fault State := cs.foldlM (step depth) s

end Calls

/-- Before the first promise. -/
def fresh : State where
  promises _ := { state := .pending, value := .nil, deferreds := .zero, refs := none }
  count := 0
  slots _ := .nil
  len := 0
  errerr := false
  running := []
  owner _ := none
  misuses := 0
  called _ := false
  settles _ := 0
  strays := 0
  thrown := 0
  calls := []

end Yaos.Lua
