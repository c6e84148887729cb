import Yaos.Fault
import Yaos.Lib.Run

set_option autoImplicit false

/-! # The coroutine of a request (`module/lua/http/content.c`, `module/lua/http/util.c`)

`http_lua_content_by_file` takes a coroutine for the request, remembers it in the context of the request
and registers a cleanup that gives it back when the pool of the request is destroyed. It is called once
for each segment that arrives, and every call after the first one resets the context.

The sources are built with `CLEANUP_POOL`, so that the cleanups and the context come from the pool. -/

namespace Yaos

/-- A coroutine and its reference. -/
structure LuaThread where
  co : Nat
  ref : Nat
  kernel : 0x10000 < co
deriving DecidableEq

/-- `entry_co_ctx` of a context, with no `coRef` for `LUA_NOREF`, and whether `cur_co_ctx` points to it
    or is NULL. -/
structure HttpLuaCtx where
  co : Nat
  coRef : Option Nat
  curCoCtx : Bool

/-- A request. Beside the source's own data, it records which coroutines were got from
    `http_lua_new_thread` and passed to `http_lua_delete_thread`, and which nodes of `pool->cleanup` were
    passed to `yaos_mfree`. -/
structure LuaRequest where
  ctx : Option HttpLuaCtx
  /-- For each node of `pool->cleanup`, the last one first, whether it has the handler
      `ngx_lua_ctx_cleanup`, with the context as its data. -/
  cleanup : List Bool
  obtained : List (Nat × Nat)
  deleted : List (Nat × Nat)
  mfreed : List Nat

/-- What one call of `http_lua_content_by_file` meets. -/
structure ContentCall where
  /-- `httpd_pool_cleanup_add` finds memory. -/
  pclean : Bool
  /-- `httpd_palloc` finds memory for a context. -/
  palloc : Bool
  /-- `load_lua_file` returns 0. -/
  loaded : Bool
  /-- The answer of `http_lua_new_thread`. -/
  thread : Option LuaThread
  /-- What the runs of the coroutine return. -/
  run : Int × Int

/-- What `http_lua_content_by_file` comes back with. -/
inductive ContentResult
  | enomem
  | esrch
  | ran (rc : Int)

/-- A request before its first script. -/
def newRequest : LuaRequest where
  ctx := none
  cleanup := []
  obtained := []
  deleted := []
  mfreed := []

/-- `ngx_lua_ctx_cleanup`. -/
def ngxLuaCtxCleanup (r : LuaRequest) : Except Fault LuaRequest :=
  match r.ctx with
  | none => .ok r
  | some ctx =>
      match ctx.coRef with
      | none => .ok r
      | some ref =>
          if ctx.curCoCtx then do
            assert "(ulong)ctx->cur_co_ctx->co>0x10000" (0x10000 < ctx.co)
            .ok
              { r with
                ctx := some { ctx with coRef := none }
                deleted := (ctx.co, ref) :: r.deleted }
          else .error .null

/-- `http_lua_create_ctx`. -/
def httpLuaCreateCtx (c : ContentCall) : Option HttpLuaCtx :=
  if c.palloc then some { co := 0, coRef := none, curCoCtx := false } else none

/-- Whatever coroutine the context had is forgotten. -/
def httpLuaResetCtx (ctx : HttpLuaCtx) : HttpLuaCtx := { ctx with co := 0, coRef := none }

/-- The context is made, or reset where there is one. -/
def contentCtx (r : LuaRequest) (c : ContentCall) : Option HttpLuaCtx :=
  match r.ctx with
  | none => httpLuaCreateCtx c
  | some ctx => some (httpLuaResetCtx ctx)

/-- `http_lua_content_by_file` behind `httpd_pool_cleanup_add`. The node `pclean` is freed although it
    belongs to the pool. -/
def httpLuaContent (r : LuaRequest) (c : ContentCall) (pclean : Nat) :
    Except Fault (ContentResult × LuaRequest) :=
  match contentCtx r c with
  | none => .ok (.enomem, { r with cleanup := false :: r.cleanup })
  | some ctx =>
      if !c.loaded then do
        let r ← ngxLuaCtxCleanup
          { r with
            ctx := some { ctx with coRef := none, curCoCtx := false }
            cleanup := false :: r.cleanup
            mfreed := pclean :: r.mfreed }
        .ok (.esrch, r)
      else
        match c.thread with
        | none => do
            let r ← ngxLuaCtxCleanup { r with ctx := some ctx, cleanup := false :: r.cleanup }
            .ok (.enomem, r)
        -- a thread that returns another value than 0 is run once more, and that result counts
        | some t => .ok
            (.ran (if c.run.1 ≠ 0 then c.run.2 else c.run.1),
              { r with
                ctx := some { co := t.co, coRef := some t.ref, curCoCtx := true }
                cleanup := true :: r.cleanup
                obtained := (t.co, t.ref) :: r.obtained })

/-- `http_lua_content_by_file`. -/
def httpLuaContentByFile (r : LuaRequest) (c : ContentCall) :
    Except Fault (ContentResult × LuaRequest) :=
  if c.pclean then httpLuaContent r c r.cleanup.length else .ok (.enomem, r)

/-- The calls of one request, without what they return. -/
def contentCall (r : LuaRequest) (c : ContentCall) : Except Fault LuaRequest := do
  let (_, r) ← httpLuaContentByFile r c
  .ok r

/-- A record of the request's cleanup list is run. -/
def runCleanup (r : LuaRequest) (handler : Bool) : Except Fault LuaRequest :=
  if handler then ngxLuaCtxCleanup r else .ok r

/-- The cleanups that `httpd_destroy_pool` runs before it frees the memory of the pool. -/
def httpdDestroyPool (r : LuaRequest) : Except Fault LuaRequest := r.cleanup.foldlM runCleanup r

/-- The coroutine that the context remembers. -/
def LuaRequest.current (r : LuaRequest) : List (Nat × Nat) :=
  match r.ctx with
  | none => []
  | some ctx => ctx.coRef.toList.map (ctx.co, ·)

/-- A call that gets past `httpd_pool_cleanup_add` finds no coroutine in the context, and where it has a
    context the file is loaded. -/
def ContentCall.Clean (r : LuaRequest) (c : ContentCall) : Prop :=
  c.pclean = true → r.current = [] ∧ (r.ctx ≠ none ∨ c.palloc = true → c.loaded = true)

/-! ## What every run keeps -/

/-- Nothing is deleted before the end, and a coroutine in the context is the last one that was got and has
    a cleanup. -/
structure LuaRequest.Held (r : LuaRequest) : Prop where
  deleted : r.deleted = []
  last : r.current <+: r.obtained
  cleanup : r.current ≠ [] → true ∈ r.cleanup
  pointed : ∀ ctx, r.ctx = some ctx → ctx.coRef ≠ none → ctx.curCoCtx = true ∧ 0x10000 < ctx.co

/-- No coroutine is lost, and no memory of the pool was freed on its own. -/
structure LuaRequest.Tidy (r : LuaRequest) : Prop where
  none_lost : r.obtained = r.current
  mfreed : r.mfreed = []

section Calls

variable {r r' : LuaRequest} {c : ContentCall}

theorem newRequest_held : newRequest.Held :=
  ⟨rfl, List.nil_prefix, fun h => absurd rfl h, fun ctx hctx => by cases hctx⟩

theorem newRequest_tidy : newRequest.Tidy := ⟨rfl, rfl⟩

theorem ngxLuaCtxCleanup_idle (h : r.current = []) : ngxLuaCtxCleanup r = .ok r := by
  unfold ngxLuaCtxCleanup LuaRequest.current at *
  cases hctx : r.ctx with
  | none => rfl
  | some ctx =>
      cases href : ctx.coRef with
      | none => simp only [href]
      | some ref => simp [hctx, href] at h

theorem ngxLuaCtxCleanup_held (h : r.Held) : ∃ r', ngxLuaCtxCleanup r = .ok r' ∧ r'.current = [] ∧
    r'.deleted = r.current ++ r.deleted ∧ r'.obtained = r.obtained ∧ r'.mfreed = r.mfreed := by
  by_cases hidle : r.current = []
  · exact ⟨r, ngxLuaCtxCleanup_idle hidle, hidle, by rw [hidle]; rfl, rfl, rfl⟩
  · unfold LuaRequest.current at hidle
    cases hctx : r.ctx with
    | none => simp [hctx] at hidle
    | some ctx =>
        cases href : ctx.coRef with
        | none => simp [hctx, href] at hidle
        | some ref =>
            obtain ⟨hcur, hco⟩ := h.pointed ctx hctx (by simp [href])
            refine ⟨{ r with ctx := some { ctx with coRef := none }
                             deleted := (ctx.co, ref) :: r.deleted }, ?_, rfl, ?_, rfl, rfl⟩
            · simp only [ngxLuaCtxCleanup, hctx, href, hcur, if_true, assert_bind hco]
            · simp [LuaRequest.current, hctx, href]

/-- A call comes back, and its result is one of five. -/
inductive CallStep (r : LuaRequest) (c : ContentCall) : LuaRequest → Prop
  | skipped (hpclean : c.pclean = false) : CallStep r c r
  | noCtx (hpclean : c.pclean = true) (hctx : contentCtx r c = none) :
      CallStep r c { r with cleanup := false :: r.cleanup }
  | unloaded {ctx : HttpLuaCtx} (hpclean : c.pclean = true) (hctx : contentCtx r c = some ctx)
      (hload : c.loaded = false) : CallStep r c
        { r with
          ctx := some { ctx with coRef := none, curCoCtx := false }
          cleanup := false :: r.cleanup
          mfreed := r.cleanup.length :: r.mfreed }
  | noThread {ctx : HttpLuaCtx} (hpclean : c.pclean = true) (hctx : contentCtx r c = some ctx)
      (hload : c.loaded = true) : CallStep r c { r with ctx := some ctx, cleanup := false :: r.cleanup }
  | started {ctx : HttpLuaCtx} {t : LuaThread} (hpclean : c.pclean = true)
      (hctx : contentCtx r c = some ctx) (hload : c.loaded = true) : CallStep r c
        { r with
          ctx := some { co := t.co, coRef := some t.ref, curCoCtx := true }
          cleanup := true :: r.cleanup
          obtained := (t.co, t.ref) :: r.obtained }

/-- The context that a call works on has no coroutine. -/
theorem contentCtx_coRef {ctx : HttpLuaCtx} (h : contentCtx r c = some ctx) : ctx.coRef = none := by
  unfold contentCtx httpLuaCreateCtx at h
  cases hctx : r.ctx with
  | none =>
      simp only [hctx] at h
      split at h
      · rw [← Option.some.inj h]
      · cases h
  | some old =>
      simp only [hctx, Option.some.injEq] at h
      rw [← h]
      rfl

theorem contentCall_step (r : LuaRequest) (c : ContentCall) :
    ∃ r', contentCall r c = .ok r' ∧ CallStep r c r' := by
  rw [contentCall, httpLuaContentByFile]
  cases hpclean : c.pclean with
  | false => exact ⟨r, rfl, .skipped hpclean⟩
  | true =>
      rw [if_pos rfl, httpLuaContent]
      cases hctx : contentCtx r c with
      | none => exact ⟨_, rfl, .noCtx hpclean hctx⟩
      | some ctx =>
          have hidle : ∀ ctx' : HttpLuaCtx, ctx'.coRef = none → ∀ l m,
              ({ r with ctx := some ctx', cleanup := l, mfreed := m } : LuaRequest).current = [] :=
            fun ctx' href l m => by simp [LuaRequest.current, href]
          cases hload : c.loaded with
          | false =>
              dsimp only
              rw [if_pos Bool.not_false, ngxLuaCtxCleanup_idle (hidle _ rfl _ _)]
              exact ⟨_, rfl, .unloaded hpclean hctx hload⟩
          | true =>
              dsimp only
              rw [if_neg (by simp)]
              cases hthread : c.thread with
              | none =>
                  dsimp only
                  rw [ngxLuaCtxCleanup_idle (hidle ctx (contentCtx_coRef hctx) _ _)]
                  exact ⟨_, rfl, .noThread hpclean hctx hload⟩
              | some t => exact ⟨_, rfl, .started hpclean hctx hload⟩

theorem CallStep.held (h : r.Held) (step : CallStep r c r') : r'.Held := by
  cases step with
  | skipped _ => exact h
  | noCtx _ _ => exact ⟨h.deleted, h.last, fun hne => List.mem_cons_of_mem _ (h.cleanup hne), h.pointed⟩
  | unloaded _ _ _ =>
      refine ⟨h.deleted, List.nil_prefix, fun hne => absurd rfl hne, fun ctx hctx href => ?_⟩
      rw [← Option.some.inj hctx] at href
      exact absurd rfl href
  | noThread _ hctx _ =>
      have href := contentCtx_coRef hctx
      refine ⟨h.deleted, ?_, fun hne => ?_, fun ctx' hctx' href' => ?_⟩
      · simp [LuaRequest.current, href]
      · simp [LuaRequest.current, href] at hne
      · rw [← Option.some.inj hctx'] at href'
        exact absurd href href'
  | @started _ t _ _ _ =>
      refine ⟨h.deleted, List.prefix_append [_] _, fun _ => List.mem_cons_self, fun ctx hctx _ => ?_⟩
      rw [← Option.some.inj hctx]
      exact ⟨rfl, t.kernel⟩

theorem clean_of_loaded (hpclean : c.pclean = true) (hload : c.loaded = true) :
    c.Clean r ↔ r.current = [] :=
  ⟨fun h => (h hpclean).1, fun h _ => ⟨h, fun _ => hload⟩⟩

/-- A call leaves things tidy exactly when they were tidy and the call is clean. -/
theorem CallStep.tidy_iff (h : r.Held) (step : CallStep r c r') : r'.Tidy ↔ r.Tidy ∧ c.Clean r := by
  have hfound : ∀ {ctx : HttpLuaCtx}, contentCtx r c = some ctx → r.ctx ≠ none ∨ c.palloc = true := by
    intro ctx hctx
    unfold contentCtx httpLuaCreateCtx at hctx
    by_cases hnone : r.ctx = none
    · simp only [hnone] at hctx
      split at hctx
      · exact .inr ‹_›
      · cases hctx
    · exact .inl hnone
  cases step with
  | skipped hpclean =>
      refine ⟨fun h => ⟨h, fun hp => ?_⟩, And.left⟩
      exact absurd (hpclean.symm.trans hp) Bool.false_ne_true
  | noCtx _ hctx =>
      have hnone : r.ctx = none := by
        unfold contentCtx at hctx
        cases hold : r.ctx with
        | none => rfl
        | some ctx => simp [hold] at hctx
      have hpalloc : c.palloc = false := by
        simpa [contentCtx, hnone, httpLuaCreateCtx] using hctx
      refine ⟨fun h => ⟨⟨h.none_lost, h.mfreed⟩, fun _ => ⟨?_, fun hex => ?_⟩⟩, fun h =>
        ⟨h.1.none_lost, h.1.mfreed⟩⟩
      · simp [LuaRequest.current, hnone]
      · simp [hnone, hpalloc] at hex
  | unloaded hpclean hctx hload =>
      refine iff_of_false (fun h => by cases h.mfreed) fun h => ?_
      exact absurd (hload.symm.trans ((h.2 hpclean).2 (hfound hctx))) Bool.false_ne_true
  | @noThread ctx hpclean hctx hload =>
      rw [clean_of_loaded hpclean hload]
      have hidle : ({ r with ctx := some ctx, cleanup := false :: r.cleanup } : LuaRequest).current = [] := by
        simp [LuaRequest.current, contentCtx_coRef hctx]
      refine ⟨fun ht => ?_, fun ht => ⟨(ht.1.none_lost.trans ht.2).trans hidle.symm, ht.1.mfreed⟩⟩
      have hnone : r.obtained = [] := ht.none_lost.trans hidle
      have hcurrent : r.current = [] := List.prefix_nil.1 (hnone ▸ h.last)
      exact ⟨⟨hnone.trans hcurrent.symm, ht.mfreed⟩, hcurrent⟩
  | @started _ t hpclean hctx hload =>
      rw [clean_of_loaded hpclean hload]
      refine ⟨fun ht => ?_, fun ht => ⟨?_, ht.1.mfreed⟩⟩
      · -- the new coroutine is the only one
        have hnone : r.obtained = [] := (List.cons.inj ht.none_lost).2
        have hcurrent : r.current = [] := List.prefix_nil.1 (hnone ▸ h.last)
        exact ⟨⟨hnone.trans hcurrent.symm, ht.mfreed⟩, hcurrent⟩
      · show (t.co, t.ref) :: r.obtained = [(t.co, t.ref)]
        rw [ht.1.none_lost, ht.2]

end Calls

/-! ## The end of the request -/

section Destroy

variable {r r' : LuaRequest}

theorem runCleanups_idle (h : r.current = []) (cleanup : List Bool) :
    cleanup.foldlM runCleanup r = .ok r := by
  induction cleanup with
  | nil => rfl
  | cons handler cleanup ih =>
      refine Run.cons_eq_ok.2 ⟨r, ?_, ih⟩
      rw [runCleanup, ngxLuaCtxCleanup_idle h, ite_self]

/-- The first cleanup with the handler gives the coroutine back. -/
theorem runCleanups_held (h : r.Held) {cleanup : List Bool} (hcleanup : r.current ≠ [] → true ∈ cleanup) :
    ∃ r', cleanup.foldlM runCleanup r = .ok r' ∧ r'.deleted = r.current ∧ r'.obtained = r.obtained ∧
      r'.mfreed = r.mfreed := by
  by_cases hidle : r.current = []
  · exact ⟨r, runCleanups_idle hidle cleanup, hidle ▸ h.deleted, rfl, rfl⟩
  · replace hcleanup := hcleanup hidle
    induction cleanup with
    | nil => cases hcleanup
    | cons handler cleanup ih =>
        cases handler with
        | false =>
            obtain ⟨r', hok, hr'⟩ := ih (by simpa using hcleanup)
            exact ⟨r', Run.cons_eq_ok.2 ⟨r, rfl, hok⟩, hr'⟩
        | true =>
            obtain ⟨r', hok, hgone, hdeleted, hobtained, hmfreed⟩ := ngxLuaCtxCleanup_held h
            rw [h.deleted, List.append_nil] at hdeleted
            exact ⟨r', Run.cons_eq_ok.2 ⟨r', hok, runCleanups_idle hgone cleanup⟩, hdeleted, hobtained,
              hmfreed⟩

/-- The pool can be destroyed, and everything is given back once exactly if things are tidy. -/
theorem destroy_tidy_iff (h : r.Held) :
    (∃ r', httpdDestroyPool r = .ok r' ∧ r'.deleted.Perm r'.obtained ∧ r'.mfreed = []) ↔ r.Tidy := by
  obtain ⟨r', hok, hdeleted, hobtained, hmfreed⟩ := runCleanups_held h h.cleanup
  constructor
  · rintro ⟨r'', hok', hperm, hnil⟩
    obtain rfl := Except.ok.inj (hok.symm.trans hok')
    rw [hdeleted, hobtained] at hperm
    exact ⟨(h.last.eq_of_length hperm.length_eq).symm, hmfreed ▸ hnil⟩
  · intro ht
    refine ⟨r', hok, ?_, hmfreed.trans ht.mfreed⟩
    rw [hdeleted, hobtained, ht.none_lost]

end Destroy

/-! ## The result -/

theorem contentCalls_tidy_iff {r : LuaRequest} (h : r.Held) (cs : List ContentCall) :
    (∃ r', cs.foldlM contentCall r = .ok r' ∧ r'.Held ∧ r'.Tidy) ↔
      r.Tidy ∧ Run.Allowed contentCall (fun r c => c.Clean r) r cs := by
  induction cs generalizing r with
  | nil =>
      refine ⟨?_, fun ht => ⟨r, rfl, h, ht.1⟩⟩
      rintro ⟨r', hok, -, ht⟩
      obtain rfl := Except.ok.inj hok
      exact ⟨ht, trivial⟩
  | cons c cs ih =>
      obtain ⟨r₁, hr₁, step⟩ := contentCall_step r c
      have hrest : (∃ r', (c :: cs).foldlM contentCall r = .ok r' ∧ r'.Held ∧ r'.Tidy) ↔
          ∃ r', cs.foldlM contentCall r₁ = .ok r' ∧ r'.Held ∧ r'.Tidy := by
        refine exists_congr fun r' => and_congr_left fun _ => ?_
        rw [Run.cons_eq_ok]
        refine ⟨fun ⟨r₂, hr₂, hok⟩ => ?_, fun hok => ⟨r₁, hr₁, hok⟩⟩
        obtain rfl := Except.ok.inj (hr₁.symm.trans hr₂)
        exact hok
      rw [hrest, Run.allowed_cons hr₁, ih (step.held h), step.tidy_iff h, and_assoc]

/-- **Coroutines are given back once.** After any calls for a request, the pool can be destroyed, every
    coroutine got from `http_lua_new_thread` is then passed to `http_lua_delete_thread` once, with its own
    reference, and no memory of the pool is freed on its own, if and only if every call is clean. -/
theorem coroutines_returned_iff (cs : List ContentCall) :
    (∃ r, cs.foldlM contentCall newRequest = .ok r ∧ ∃ r', httpdDestroyPool r = .ok r' ∧
      r'.deleted.Perm r'.obtained ∧ r'.mfreed = []) ↔
      Run.Allowed contentCall (fun r c => c.Clean r) newRequest cs := by
  have hheld : ∀ r, cs.foldlM contentCall newRequest = .ok r → r.Held := fun r hok => by
    refine Run.keeps (fun c r r' h hok => ?_) newRequest_held hok
    obtain ⟨r₁, hr₁, step⟩ := contentCall_step r c
    obtain rfl := Except.ok.inj (hr₁.symm.trans hok)
    exact step.held h
  have hiff := contentCalls_tidy_iff newRequest_held cs
  rw [and_iff_right newRequest_tidy] at hiff
  rw [← hiff]
  refine exists_congr fun r => and_congr_right fun hok => ?_
  rw [destroy_tidy_iff (hheld r hok), and_iff_right (hheld r hok)]

/-- Two segments of a request arrive: each takes a coroutine, and only the second is given back. -/
theorem coroutine_lost : ∃ r r', [⟨true, true, true, some ⟨0x100000, 7, by decide⟩, (0, 0)⟩,
      ⟨true, true, true, some ⟨0x200000, 8, by decide⟩, (0, 0)⟩].foldlM contentCall newRequest = .ok r ∧
    httpdDestroyPool r = .ok r' ∧ r'.obtained = [(0x200000, 8), (0x100000, 7)] ∧
    r'.deleted = [(0x200000, 8)] ∧ ¬ r'.deleted.Perm r'.obtained :=
  ⟨_, _, rfl, rfl, rfl, rfl, by decide⟩

end Yaos
