import Yaos.Lua.Promise.Proofs

set_option autoImplicit false

/-! # Promises on the Lua stack (`module/lua/yaos/promise.c`)

The functions of `promise.c` have their arguments on the Lua stack, address them by their distance from
the top or from the bottom, and pop what they think they have pushed. Here they are statement for
statement; what they do to promises and to the registry is what it is in `Yaos.Lua`. -/

namespace Yaos.Lua.OnStack

/-- The fields of promises and handlers. -/
inductive Field
  | state
  | value
  | deferredState
  | deferreds
  | next
  | promise
  | onFulfilled
  | onRejected
deriving DecidableEq, Repr

/-- What is on the stack. -/
inductive Slot
  | value (v : Value)
  /-- A number of the enumeration `PENDING`, `RESOLVED`, ... -/
  | state (x : PState)
  /-- The name of a field. -/
  | name (k : Field)
  /-- A table that `Handler` has made. -/
  | handler (d : Deferred)
  /-- A table of handlers that no promise has yet. -/
  | handlers (ds : List Deferred)
  /-- The table `_deferreds` of a promise. -/
  | deferreds (p : Nat)
  | fn (f : Fn)
  /-- `error_handle` with its upvalue, for the call with this number. -/
  | errorHandle (call r : Nat)

/-- `nil` on the stack. -/
def Slot.nil : Slot := .value .nil

/-- A handler as an argument: `nil` where there is none. -/
def Slot.ofFn : Option Fn → Slot
  | none => .nil
  | some f => .fn f

/-- An entry of `_deferreds` as it stands on the stack. -/
def Slot.ofHandler : Option Deferred → Slot
  | none => .nil
  | some d => .handler d

/-- What is not a function throws when it is called. -/
def Slot.callee : Slot → Option Fn
  | .value .nil => none
  | .fn f => some f
  | _ => some fun _ => .error luaError

/-- A slot as a value of Lua; a table that is no promise is an other one. -/
def Slot.toValue : Slot → Value
  | .value v => v
  | _ => .other 1

/-- The entry of `_deferreds` that stands in a slot. -/
def Slot.toHandler : Slot → Option Deferred
  | .handler d => some d
  | _ => none

/-- The stack, its top first. -/
abbrev Stack := List Slot

/-- `-k` from the top, or `i` from the bottom. -/
inductive Index
  | top (k : Nat)
  | base (i : Nat)

/-- How far below the top an index is. -/
def Index.depth (st : Stack) : Index → Nat
  | .top k => k - 1
  | .base i => st.length - i

/-- What stands at an index; `nil` beyond the stack. -/
def Index.get (st : Stack) (i : Index) : Slot := st.getD (i.depth st) .nil

/-- C code that uses the stack. -/
structure C (α : Type) where
  run : Stack → State → Ret (α × Stack)

instance : Monad C where
  pure a := ⟨fun st s => .ret (a, st) s⟩
  bind m k := ⟨fun st s => (m.run st s).andThen fun r s => (k r.1).run r.2 s⟩

/-! ## The interface of Lua -/

/-- `lua_gettop`. -/
def gettop : C Nat where
  run st s := .ret (st.length, st) s

/-- `lua_settop`: the stack is cut, or filled up with `nil`. -/
def settop (i : Nat) : C Unit where
  run st s :=
  .ret ((), List.replicate (i - st.length) .nil ++ st.drop (st.length - i)) s

/-- `lua_pop`. -/
def pop (n : Nat) : C Unit where
  run st s := .ret ((), st.drop n) s

/-- A value is pushed. -/
def push (x : Slot) : C Unit where
  run st s := .ret ((), x :: st) s

/-- `lua_pushvalue`. -/
def pushvalue (i : Index) : C Unit where
  run st s := .ret ((), i.get st :: st) s

/-- The top is moved to where `i` is. -/
def replace (i : Index) : C Unit where
  run st s :=
  .ret ((), (st.set (i.depth st) (st.headD .nil)).drop 1) s

/-- `lua_insert`: the top is moved to `i`. -/
def insert (i : Index) : C Unit where
  run st s :=
  .ret ((), st.tail.take (i.depth st) ++ st.headD .nil :: st.tail.drop (i.depth st)) s

/-- `lua_remove`. -/
def remove (i : Index) : C Unit where
  run st s := .ret ((), st.eraseIdx (i.depth st)) s

/-- `lua_tointeger`. -/
def tointeger (i : Index) : C Nat where
  run st s :=
  match i.get st with
  | .value v => .ret (v.toInteger, st) s
  | _ => .ret (0, st) s

/-- `lua_tointeger` of a number of the enumeration. -/
def tostate (i : Index) : C PState where
  run st s :=
  match i.get st with
  | .state x => .ret (x, st) s
  | _ => .ret (.pending, st) s

/-- `lua_type(L, i) == LUA_TNIL`. -/
def isnil (i : Index) : C Bool where
  run st s :=
  match i.get st with
  | .value .nil => .ret (true, st) s
  | _ => .ret (false, st) s

/-- `is_promise`. -/
def isPromise (i : Index) : C Bool where
  run st s := .ret ((i.get st).toValue.isPromise, st) s

/-- An error of Lua itself. -/
def raise {α : Type} : C α where
  run _ s := .raise luaError s

/-- `if (c) m`. -/
def when (c : Bool) (m : C Unit) : C Unit := if c then m else pure ()

/-! ## Fields -/

/-- A field of a promise. -/
def field (x : Promise) (p : Nat) : Field → Slot
  | .state => .state x.state
  | .value => .value x.value
  | .deferredState =>
    match x.deferreds with
    | .zero => .value (.num 0)
    | .one _ => .value (.num 1)
    | .table _ => .value (.num 2)
  | .deferreds =>
    match x.deferreds with
    | .zero => .nil
    | .one d => .ofHandler d
    | .table _ => .deferreds p
  | .next => .value (.other 0)
  | _ => .nil

/-- A field of a promise is written. `_deferredState` and `_deferreds` are one in the state: a table is
    stored with the number 2. -/
def setField (s : State) (p : Nat) : Field → Slot → State
  | .state, .state x =>
    { s.setPromise p { s.promises p with state := x } with
      settles := Function.update s.settles p (s.settles p + 1) }
  | .value, x => s.setPromise p { s.promises p with value := x.toValue }
  | .deferredState, .value (.num 1) =>
    match (s.promises p).deferreds with
    | .zero => s.setDeferreds p (.one none)
    | _ => s
  | .deferreds, .handlers ds => s.setDeferreds p (.table ds)
  | .deferreds, x =>
    match (s.promises p).deferreds with
    | .one _ => s.setDeferreds p (.one x.toHandler)
    | _ => s
  | _, _ => s

/-- `lua_getfield`. What is not a table has no fields. -/
def getfield (i : Index) (k : Field) : C Unit where
  run st s :=
  match i.get st, k with
  | .value (.promise p), k => (push (field (s.promises p) p k)).run st s
  | .handler d, .promise => (push (.value (.promise d.promise))).run st s
  | .handler d, .onFulfilled => (push (.ofFn d.onFulfilled)).run st s
  | .handler d, .onRejected => (push (.ofFn d.onRejected)).run st s
  | _, _ => raise.run st s

/-- `lua_setfield`. -/
def setfield (i : Index) (k : Field) : C Unit where
  run st s :=
  let x := st.headD .nil
  let write : Slot → Ret (Unit × Stack) := fun t => .ret ((), (st.set (i.depth st) t).drop 1) s
  match i.get st, k with
  | .value (.promise p), k => (pop 1).run st (setField s p k x)
  | .handler d, .promise =>
    match x with
    | .value (.promise p) => write (.handler { d with promise := p })
    | _ => raise.run st s
  | .handler d, .onRejected => write (.handler { d with onRejected := x.callee })
  | .handler d, .onFulfilled => write (.handler { d with onFulfilled := x.callee })
  | _, _ => raise.run st s

/-- `lua_rawset`. -/
def rawset (i : Index) : C Unit where
  run st s :=
  match i.get st, st with
  | .value (.promise p), x :: .name k :: st => .ret ((), st) (setField s p k x)
  | _, _ => .fault .null

/-- `lua_rawseti` of a table of handlers; the number is the first that is free. -/
def rawseti (i : Index) : C Unit where
  run st s :=
  let x := st.headD .nil
  match i.get st with
  | .handlers ds => .ret ((), (st.set (i.depth st) (.handlers (ds ++ x.toHandler.toList))).drop 1) s
  | .deferreds p =>
    (pop 1).run st (s.setDeferreds p (.table ((s.promises p).deferreds.toList ++ x.toHandler.toList)))
  | _ => raise.run st s

/-- `lua_next`: the top is the number of the last handler. -/
def next (i : Index) : C Bool where
  run st s :=
  let step : Nat → Ret (Bool × Stack) := fun k =>
    match i.get st with
    | .deferreds p =>
      match (s.promises p).deferreds.toList[k]? with
      | some d => .ret (true, .handler d :: .value (.num (k + 1)) :: st.tail) s
      | none => .ret (false, st.tail) s
    | _ => .raise luaError s
  match st.headD .nil with
  | .value .nil => step 0
  | .value (.num k) => step k
  | _ => .raise luaError s

/-- `luaL_ref` of the promise on top. -/
def ref : C Nat where
  run st s :=
  let taken := s.ref (.handler s.calls.length) (st.headD .nil).toValue
  .ret (taken.1, st.tail) taken.2

/-- How long the table of handlers is. -/
def objlen (i : Index) : C Nat where
  run st s :=
  match i.get st with
  | .deferreds p => .ret ((s.promises p).deferreds.toList.length, st) s
  | _ => .ret (0, st) s

/-- `lua_rawgeti` of the registry, for the error handler of a call. -/
def rawgeti (call r : Nat) : C Unit where
  run st s :=
  (push (.value (s.slots r))).run st (s.use (.handler call) r)

/-- `luaL_unref`, for the error handler of a call. -/
def unref (call r : Nat) : C Unit where
  run st s := .ret ((), st) (s.unref (.handler call) r)

/-- The number of promises there are. -/
def promises : C Nat where
  run st s := .ret (s.count, st) s

/-- The number of handlers that have been called. -/
def calls : C Nat where
  run st s := .ret (s.calls.length, st) s

/-- `lua_new_promise` called without an executor. -/
def newPromise : C Unit where
  run st s :=
  (push (.value (.promise s.newPromise.1))).run st s.newPromise.2

/-! ## The functions -/

/-- `Handler`. -/
def Handler : C Unit := do
  push (.handler { onFulfilled := none, onRejected := none, promise := 0 })
  pushvalue (.top 2)
  setfield (.top 2) .promise
  pushvalue (.top 3)
  setfield (.top 2) .onRejected
  pushvalue (.top 4)
  setfield (.top 2) .onFulfilled

/-- `while (state == RESOLVING)` of `handle`. -/
def follow : Nat → PState → C PState
  | 0, _ => ⟨fun _ _ => .fault .hang⟩
  | fuel + 1, state =>
    if state = .resolving then do
      pop 1
      getfield (.top 1) .value
      replace (.top 2)
      getfield (.top 1) .state
      let state ← tostate (.top 1)
      follow fuel state
    else pure state

/-- The branch of `handle` for a pending promise: its two arguments and the end of the chain are on the
    stack. -/
def addDeferred (top : Nat) : C Unit := do
  getfield (.top 1) .deferredState
  let deferredState ← tointeger (.top 1)
  pop 1
  if deferredState = 0 then do
    push (.value (.num 1))
    setfield (.top 2) .deferredState
    pushvalue (.base top)
    setfield (.top 2) .deferreds
    settop top
  else if deferredState = 1 then do
    push (.value (.num 2))
    setfield (.top 2) .deferredState
    push (.handlers [])
    getfield (.top 2) .deferreds
    rawseti (.top 2)
    pushvalue (.top 3)
    rawseti (.top 2)
    setfield (.top 2) .deferreds
    pop 1
  else do
    -- takes off the table only; the promise stays
    getfield (.top 1) .deferreds
    pushvalue (.top 3)
    rawseti (.top 2)
    pop 1

/-- `while (lua_next(L, index))` of `finale`. -/
def forEach (handle : C Unit) (index : Nat) : Nat → C Unit
  | 0 => ⟨fun _ _ => .fault .hang⟩
  | fuel + 1 => do
    let more ← next (.base index)
    if more then do
      pushvalue (.base (index - 1))
      pushvalue (.top 2)
      handle
      pop 3
      forEach handle index fuel
    else pure ()

/-- What `lua_pcall` is about to call is noted. -/
def note (state : PState) : C Unit where
  run st s :=
  match Index.get st (.top 3), Index.get st (.top 1) with
  | .handler d, .value v =>
    .ret ((), st) { s with calls := s.calls ++ [{ promise := d.promise, state := state, value := v }] }
  | _, _ => .ret ((), st) s

/-- `lua_pcall` of the function below the top. The error handler is below it and the handler's table; while
    one runs, another error ends it. -/
def pcall (errorHandle : Nat → Nat → Value → State → Ret Slot) : C Bool where
  run st s :=
  match st with
  | .value v :: f :: d :: .errorHandle call r :: st =>
    match f.callee.getD (fun _ => .error luaError) v with
    | .ok w => .ret (true, .value w :: d :: .errorHandle call r :: st) s
    | .error e =>
      let s := { s with thrown := s.thrown + 1 }
      if s.errerr then
        .ret (false, .value e :: d :: .errorHandle call r :: st) { s with errerr := false }
      else
        (errorHandle call r e { s with errerr := true }).andThen fun x s =>
          .ret (false, x :: d :: .errorHandle call r :: st) { s with errerr := false }
  | _ => .raise luaError s

/-- The C stack is used up. -/
def overflow {α : Type} : C α where
  run _ _ := stackOverflow

mutual

/-- `resolve(L)`, with its stack operations. -/
def resolve : Nat → C Unit
  | 0 => overflow
  | n + 1 => do
    let top ← gettop
    let promise ← isPromise (.top 1)
    when promise (do
      getfield (.top 1) .next
      getfield (.top 3) .next
      pop 2)
    push (.name .state)
    push (.state (if promise then .resolving else .resolved))
    rawset (.base (top - 1))
    push (.name .value)
    pushvalue (.base top)
    rawset (.base (top - 1))
    pushvalue (.base (top - 1))
    finale n
    settop top
termination_by structural n => n

/-- `reject(L)`. -/
def reject : Nat → C Unit
  | 0 => overflow
  | n + 1 => do
    push (.state .rejected)
    setfield (.top 3) .state
    pushvalue (.top 1)
    setfield (.top 3) .value
    pushvalue (.top 2)
    finale n
    pop 1
termination_by structural n => n

/-- `finale(L)`. -/
def finale : Nat → C Unit
  | 0 => overflow
  | n + 1 => do
    let top ← gettop
    getfield (.top 1) .deferredState
    let deferredState ← tointeger (.top 1)
    pop 1
    if deferredState = 1 then do
      pushvalue (.base top)
      getfield (.top 1) .deferreds
      handle n
      -- `_deferredState` is still 1
      push .nil
      setfield (.base top) .deferreds
      settop top
    else if deferredState = 2 then do
      getfield (.top 1) .deferreds
      let index ← gettop
      let len ← objlen (.top 1)
      push .nil
      forEach (handle n) index (len + 1)
      settop top
    else pure ()
termination_by structural n => n

/-- `handle(L)`. -/
def handle : Nat → C Unit
  | 0 => overflow
  | n + 1 => do
    let top ← gettop
    pushvalue (.top 2)
    getfield (.top 1) .state
    let state ← tostate (.top 1)
    let turns ← promises
    let state ← follow (turns + 1) state
    pop 1
    if state = .pending then addDeferred top
    else do
      pushvalue (.top 2)
      handleResolved n
      pop 2
termination_by structural n => n

/-- `handleResolved(L)`. -/
def handleResolved : Nat → C Unit
  | 0 => overflow
  | n + 1 => do
    getfield (.top 2) .state
    let state ← tostate (.top 1)
    pop 1
    let old ← gettop
    getfield (.top 1) (if state = .resolved then .onFulfilled else .onRejected)
    let absent ← isnil (.top 1)
    if absent then do
      pop 1
      getfield (.top 1) .promise
      getfield (.top 3) .value
      (if state = .resolved then resolve n else reject n)
      pop 2
    else do
      getfield (.base (old - 1)) .value
      pushvalue (.base (old - 1))
      let call ← calls
      let promise ← ref
      note state
      push (.errorHandle call promise)
      -- below the handler's table, where `lua_pcall` is told to look for it
      insert (.base old)
      let ok ← pcall (errorHandle n)
      remove (.base old)
      getfield (.top 2) .promise
      if ok then do
        pushvalue (.top 2)
        resolve n
        pop 3
      else do
        -- `reject` is commented out here: the error handler has called it
        push (.handlers [])
        pop 3
termination_by structural n => n

/-- `error_handle` has a stack of its own, with the error. -/
def errorHandle : Nat → Nat → Nat → Value → State → Ret Slot
  | 0, _, _, _, _ => stackOverflow
  | n + 1, call, r, e, s =>
    let body : C Unit := do
      rawgeti call r
      pushvalue (.base 1)
      reject n
      settop 1
      unref call r
    match body.run [.value e] s with
    | .ret x s => .ret (x.2.headD .nil) s
    | .raise e s => if s.errerr then .ret (.value e) s else errorHandle n call r e { s with errerr := true }
    | .fault f => .fault f
termination_by structural n => n

end

/-- `thennext`; what is on top at the end is what it returns. -/
def thennext (n : Nat) : C Unit := do
  let argc ← gettop
  when (argc < 3) (push .nil)
  newPromise
  Handler
  -- below: the handler and the new promise
  pushvalue (.base 1)
  pushvalue (.top 2)
  handle n
  pop 3

end Yaos.Lua.OnStack
