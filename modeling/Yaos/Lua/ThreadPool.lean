import Yaos.Fault
import Yaos.Lib.Chain
import Yaos.Lib.Run

set_option autoImplicit false

/-! # The pool of coroutines (`module/lua/http/util.c`, built with `LUA_THREAD_POOL`)

A coroutine that a request no longer needs is kept: its state and its reference go into a node that is
taken from `thread_pool_free` and put on `thread_pool_head`, and the next request takes the coroutine
from there. Nodes come in blocks of 64; `init_util_call` allocates the first one.

Pointers count in nodes. The coroutines that Lua makes are numbered in the order of their making. -/

namespace Yaos

open Chains

/-- `struct thread_pool`. -/
structure PoolNode where
  pnext : Option Nat
  co : Nat
  ref : Nat

/-- The nodes and the two lists; `blocks` and `held` record what was allocated and which pairs the
    requests hold. -/
structure ThreadPools where
  nodes : Nat → PoolNode
  threadPoolHead : Option Nat
  threadPoolFree : Option Nat
  /-- The coroutines made so far. -/
  made : Nat
  /-- The calls of `yaos_malloc` so far. -/
  mallocs : Nat
  blocks : List Nat
  held : List (Nat × Nat)

/-- What the code gets from outside: the reference of the `n`-th coroutine, or nothing for
    `LUA_NOREF`, and the block that the `n`-th `yaos_malloc` gives. -/
structure PoolSupply where
  refs : Nat → Option Nat
  malloc : Nat → Option Nat

/-- The link of a node. -/
def ThreadPools.pnext (s : ThreadPools) (p : Nat) : Option Nat := (s.nodes p).pnext

/-- `p->pnext = link`. -/
def ThreadPools.setNext (s : ThreadPools) (p : Nat) (link : Option Nat) : ThreadPools :=
  { s with nodes := Function.update s.nodes p { s.nodes p with pnext := link } }

/-- `for (i = 0; i < n; i++) { ptr->pnext = ptr + 1; ptr = ptr + 1; }`, with the last `ptr`. -/
def linkNodes : Nat → ThreadPools → Nat → ThreadPools × Nat
  | 0, s, ptr => (s, ptr)
  | n + 1, s, ptr => linkNodes n (s.setNext ptr (some (ptr + 1))) (ptr + 1)

/-- The loop links all 64 nodes to the one behind them, so that the last link is written to a node
    behind the block. -/
def httpLuaAllocThreadPools (supply : PoolSupply) (s : ThreadPools) : ThreadPools :=
  let p := supply.malloc s.mallocs
  let s := { s with mallocs := s.mallocs + 1 }
  match p with
  | none => s
  | some p =>
      let (s, ptr) := linkNodes 64 { s with blocks := s.blocks ++ [p] } p
      { s.setNext ptr s.threadPoolFree with threadPoolFree := some p }

/-- The node that is taken from `thread_pool_free` stays there. -/
def httpLuaThreadPoolFree (supply : PoolSupply) (s : ThreadPools) (co ref : Nat) :
    Except Fault ThreadPools :=
  let s := if s.threadPoolFree = none then httpLuaAllocThreadPools supply s else s
  match s.threadPoolFree with
  | none => .error (.assertion "p")
  | some p => .ok
      { s with
        nodes := Function.update s.nodes p { pnext := s.threadPoolHead, co := co, ref := ref }
        threadPoolHead := some p }

/-- The request does not hold the coroutine any more. -/
def httpLuaDeleteThread (supply : PoolSupply) (s : ThreadPools) (co ref : Nat) :
    Except Fault ThreadPools := do
  let s ← httpLuaThreadPoolFree supply s co ref
  .ok { s with held := s.held.erase (co, ref) }

/-- Without a pooled coroutine, Lua makes a new one; one without a reference is dropped and the call
    returns NULL. -/
def httpLuaNewThread (supply : PoolSupply) (s : ThreadPools) : Option (Nat × Nat) × ThreadPools :=
  match s.threadPoolHead with
  | some p =>
      let pair := ((s.nodes p).co, (s.nodes p).ref)
      let s := { s with threadPoolHead := s.pnext p }
      let s := { s.setNext p s.threadPoolFree with threadPoolFree := some p }
      (some pair, { s with held := pair :: s.held })
  | none =>
      let co := s.made
      let s := { s with made := s.made + 1 }
      match supply.refs co with
      | none => (none, s)
      | some ref => (some (co, ref), { s with held := (co, ref) :: s.held })

/-- A call of `http_lua_new_thread` or `http_lua_delete_thread`. -/
inductive PoolCall
  | new
  | delete (co ref : Nat)

/-- One call. -/
def poolCall (supply : PoolSupply) (s : ThreadPools) : PoolCall → Except Fault ThreadPools
  | .new => .ok (httpLuaNewThread supply s).2
  | .delete co ref => httpLuaDeleteThread supply s co ref

/-- A run. -/
def poolCalls (supply : PoolSupply) (s : ThreadPools) (cs : List PoolCall) :
    Except Fault ThreadPools :=
  cs.foldlM (poolCall supply) s

/-- Before `init_util_call`: memory that nothing has been written to. -/
def emptyPools : ThreadPools where
  nodes _ := { pnext := none, co := 0, ref := 0 }
  threadPoolHead := none
  threadPoolFree := none
  made := 0
  mallocs := 0
  blocks := []
  held := []

/-- `init_util_call`, which clears both lists and allocates the first block. -/
def initUtilCall (supply : PoolSupply) : ThreadPools := httpLuaAllocThreadPools supply emptyPools

/-- The node lies in a block that was allocated. -/
def ThreadPools.InBlock (s : ThreadPools) (p : Nat) : Prop := ∃ b ∈ s.blocks, b ≤ p ∧ p < b + 64

/-- No two requests hold one coroutine, each holds it with its own reference, and every node is on
    one of the two lists, and in a block. -/
structure ThreadPools.Good (supply : PoolSupply) (s : ThreadPools) : Prop where
  distinct : (s.held.map Prod.fst).Nodup
  pairs : ∀ c ∈ s.held, c.1 < s.made ∧ supply.refs c.1 = some c.2
  inBlock : ∀ p, Visits s.pnext s.threadPoolHead p ∨ Visits s.pnext s.threadPoolFree p → s.InBlock p
  oneList : ∀ p, s.InBlock p →
    Xor (Visits s.pnext s.threadPoolHead p) (Visits s.pnext s.threadPoolFree p)

/-- Every call that comes back is one of `http_lua_new_thread`. -/
def OnlyNew (supply : PoolSupply) : ThreadPools → List PoolCall → Prop
  | _, [] => True
  | s, c :: cs => ∀ s', poolCall supply s c = .ok s' → c = .new ∧ OnlyNew supply s' cs

/-! ## As long as nothing is given back -/

/-- There is no pool yet, and the coroutines are held by whoever asked for them. -/
structure NoPool (supply : PoolSupply) (s : ThreadPools) : Prop where
  head : s.threadPoolHead = none
  free : s.threadPoolFree = none
  blocks : s.blocks = []
  distinct : (s.held.map Prod.fst).Nodup
  pairs : ∀ c ∈ s.held, c.1 < s.made ∧ supply.refs c.1 = some c.2

theorem initUtilCall_noPool {supply : PoolSupply} (h : supply.malloc 0 = none) :
    NoPool supply (initUtilCall supply) := by
  have hstart : initUtilCall supply = { emptyPools with mallocs := 1 } := by
    unfold initUtilCall httpLuaAllocThreadPools
    rw [show supply.malloc emptyPools.mallocs = none from h]
    rfl
  rw [hstart]
  exact ⟨rfl, rfl, rfl, List.nodup_nil, fun c hc => absurd hc (by simp [emptyPools])⟩

theorem NoPool.good {supply : PoolSupply} {s : ThreadPools} (h : NoPool supply s) :
    s.Good supply := by
  have hblock : ∀ p, ¬ s.InBlock p := by
    rintro p ⟨b, hb, -⟩
    rw [h.blocks] at hb
    cases hb
  refine ⟨h.distinct, h.pairs, fun p hp => ?_, fun p hp => absurd hp (hblock p)⟩
  rw [h.head, h.free] at hp
  rcases hp with hp | hp <;> cases hp

theorem NoPool.new {supply : PoolSupply} {s : ThreadPools} (h : NoPool supply s) :
    NoPool supply (httpLuaNewThread supply s).2 := by
  have hpairs : ∀ c ∈ s.held, c.1 < s.made + 1 ∧ supply.refs c.1 = some c.2 := fun c hc =>
    ⟨Nat.lt_succ_of_lt (h.pairs c hc).1, (h.pairs c hc).2⟩
  rw [httpLuaNewThread, h.head]
  dsimp only
  cases href : supply.refs s.made with
  | none => exact ⟨rfl, h.free, h.blocks, h.distinct, hpairs⟩
  | some ref =>
      refine ⟨rfl, h.free, h.blocks, List.nodup_cons.2 ⟨fun hmem => ?_, h.distinct⟩, ?_⟩
      · obtain ⟨c, hc, heq⟩ := List.mem_map.1 hmem
        exact absurd heq (Nat.ne_of_lt (h.pairs c hc).1)
      · intro c hc
        rcases List.mem_cons.1 hc with rfl | hc
        · exact ⟨Nat.lt_succ_self _, href⟩
        · exact hpairs c hc

/-! ## The first coroutine that is given back -/

/-- The node stays at the head of the free list. -/
theorem httpLuaThreadPoolFree_both {supply : PoolSupply} {s s' : ThreadPools} {co ref : Nat}
    (h : httpLuaThreadPoolFree supply s co ref = .ok s') :
    ∃ p, s'.threadPoolHead = some p ∧ s'.threadPoolFree = some p := by
  rw [httpLuaThreadPoolFree] at h
  generalize (if s.threadPoolFree = none then httpLuaAllocThreadPools supply s else s) = s₁ at h
  cases hfree : s₁.threadPoolFree with
  | none =>
      simp only [hfree] at h
      cases h
  | some p =>
      simp only [hfree] at h
      obtain rfl := Except.ok.inj h
      exact ⟨p, rfl, rfl⟩

theorem not_good_of_delete {supply : PoolSupply} {s s' : ThreadPools} {co ref : Nat}
    (h : httpLuaDeleteThread supply s co ref = .ok s') : ¬ s'.Good supply := by
  obtain ⟨s₁, hs₁, heq⟩ := bind_eq_ok.1 h
  obtain rfl := Except.ok.inj heq
  obtain ⟨p, hhead, hfree⟩ := httpLuaThreadPoolFree_both hs₁
  intro hgood
  have hv : Visits s₁.pnext s₁.threadPoolHead p := hhead ▸ .here p
  have hv' : Visits s₁.pnext s₁.threadPoolFree p := hfree ▸ .here p
  rcases hgood.oneList p (hgood.inBlock p (.inl hv)) with ⟨-, hnot⟩ | ⟨-, hnot⟩
  · exact hnot hv'
  · exact hnot hv

/-! ## The first block -/

theorem ThreadPools.setNext_pnext (s : ThreadPools) (p q : Nat) (link : Option Nat) :
    (s.setNext p link).pnext q = if q = p then link else s.pnext q := by
  show (Function.update s.nodes p { s.nodes p with pnext := link } q).pnext = _
  by_cases hq : q = p
  · rw [if_pos hq, hq, Function.update_self]
  · rw [if_neg hq, Function.update_of_ne hq]
    rfl

/-- The loop links `n` nodes, each to the next one, and leaves the other links and the blocks. -/
theorem linkNodes_spec (n : Nat) (s : ThreadPools) (ptr : Nat) :
    (linkNodes n s ptr).2 = ptr + n ∧ (linkNodes n s ptr).1.blocks = s.blocks ∧
      ∀ q, (linkNodes n s ptr).1.pnext q = if ptr ≤ q ∧ q < ptr + n then some (q + 1) else s.pnext q := by
  induction n generalizing s ptr with
  | zero => exact ⟨rfl, rfl, fun q => (if_neg (by omega)).symm⟩
  | succ n ih =>
      obtain ⟨hptr, hblocks, hlinks⟩ := ih (s.setNext ptr (some (ptr + 1))) (ptr + 1)
      refine ⟨hptr.trans (by omega), hblocks, fun q => ?_⟩
      rw [linkNodes, hlinks, ThreadPools.setNext_pnext]
      by_cases hq : q = ptr
      · rw [if_neg (by omega), if_pos hq, if_pos (by omega), hq]
      · rw [if_neg hq]
        exact if_congr (by omega) rfl rfl

/-- Along the links of the block, every node of it and the one behind it is visited. -/
theorem visits_block {next : Nat → Option Nat} {p n : Nat} (h : ∀ i < n, next (p + i) = some (p + i + 1)) :
    Visits next (some p) (p + n) := by
  induction n generalizing p with
  | zero => exact .here p
  | succ n ih =>
      have hnext : next p = some (p + 1) := h 0 (Nat.succ_pos n)
      refine .there ?_
      rw [hnext, show p + (n + 1) = p + 1 + n by omega]
      refine ih fun i hi => ?_
      have hlink := h (i + 1) (Nat.succ_lt_succ hi)
      rwa [show p + (i + 1) = p + 1 + i by omega] at hlink

/-- The 65th link of the first block makes a node of the memory behind it. -/
theorem initUtilCall_not_good {supply : PoolSupply} {p : Nat} (h : supply.malloc 0 = some p) :
    ¬ (initUtilCall supply).Good supply := by
  let t : ThreadPools := { emptyPools with mallocs := 1, blocks := [p] }
  obtain ⟨hptr, hblocks, hlinks⟩ := linkNodes_spec 64 t p
  have hstart : initUtilCall supply =
      { (linkNodes 64 t p).1.setNext (linkNodes 64 t p).2 none with threadPoolFree := some p } := by
    unfold initUtilCall httpLuaAllocThreadPools
    dsimp only
    rw [show supply.malloc emptyPools.mallocs = some p from h]
    rfl
  generalize linkNodes 64 t p = r at *
  have hlink : ∀ i < 64, (initUtilCall supply).pnext (p + i) = some (p + i + 1) := by
    intro i hi
    rw [hstart, hptr]
    show (r.1.setNext (p + 64) none).pnext (p + i) = _
    rw [ThreadPools.setNext_pnext, if_neg (by omega), hlinks, if_pos (by omega)]
  have hfree : (initUtilCall supply).threadPoolFree = some p := by rw [hstart]
  have hbehind : Visits (initUtilCall supply).pnext (initUtilCall supply).threadPoolFree (p + 64) := by
    rw [hfree]
    exact visits_block hlink
  intro hgood
  obtain ⟨b, hb, hle, hlt⟩ := hgood.inBlock _ (.inr hbehind)
  have hone : (initUtilCall supply).blocks = [p] := by
    rw [hstart]
    exact hblocks
  rw [hone, List.mem_singleton] at hb
  omega

/-! ## Runs -/

theorem pool_good_iff_of_noPool {supply : PoolSupply} {s : ThreadPools} {cs : List PoolCall}
    (h : NoPool supply s) :
    (∀ pre, pre <+: cs → ∀ s', poolCalls supply s pre = .ok s' → s'.Good supply) ↔
      OnlyNew supply s cs := by
  induction cs generalizing s with
  | nil =>
      refine iff_of_true (fun pre hpre s' hs' => ?_) trivial
      obtain rfl := List.prefix_nil.1 hpre
      obtain rfl := Except.ok.inj hs'
      exact h.good
  | cons c cs ih =>
      cases c with
      | delete co ref =>
          constructor
          · intro hall s₁ hs₁
            refine absurd (hall [.delete co ref] (by simp) s₁ ?_) (not_good_of_delete hs₁)
            exact Run.cons_eq_ok.2 ⟨s₁, hs₁, rfl⟩
          · rintro hnew (_ | ⟨d, pre⟩) hpre s' hs'
            · obtain rfl := Except.ok.inj hs'
              exact h.good
            · obtain ⟨rfl, -⟩ := List.cons_prefix_cons.1 hpre
              obtain ⟨s₁, hs₁, -⟩ := Run.cons_eq_ok.1 hs'
              cases (hnew s₁ hs₁).1
      | new =>
          have hiff := ih h.new
          constructor
          · intro hall s₁ hs₁
            obtain rfl := Except.ok.inj hs₁
            refine ⟨rfl, hiff.1 fun pre hpre s' hs' => ?_⟩
            exact hall (.new :: pre) (List.cons_prefix_cons.2 ⟨rfl, hpre⟩) s'
              (Run.cons_eq_ok.2 ⟨_, rfl, hs'⟩)
          · rintro hnew (_ | ⟨d, pre⟩) hpre s' hs'
            · obtain rfl := Except.ok.inj hs'
              exact h.good
            · obtain ⟨rfl, hpre'⟩ := List.cons_prefix_cons.1 hpre
              obtain ⟨s₁, hs₁, hrest⟩ := Run.cons_eq_ok.1 hs'
              obtain rfl := Except.ok.inj hs₁
              exact hiff.2 (hnew _ rfl).2 pre hpre' s' hrest

/-- The pool is in order in every state of a run exactly when there is none: the first block could not be
    allocated, and no coroutine is ever given back. -/
theorem thread_pool_good_iff (supply : PoolSupply) (cs : List PoolCall) :
    (∀ pre, pre <+: cs → ∀ s, poolCalls supply (initUtilCall supply) pre = .ok s → s.Good supply) ↔
      supply.malloc 0 = none ∧ OnlyNew supply (initUtilCall supply) cs := by
  cases hmalloc : supply.malloc 0 with
  | none => rw [pool_good_iff_of_noPool (initUtilCall_noPool hmalloc), and_iff_right rfl]
  | some p =>
      refine iff_of_false (fun hall => ?_) fun h => absurd h.1 (by simp)
      exact initUtilCall_not_good hmalloc (hall [] (List.nil_prefix ..) _ rfl)

/-- A supply in which every call succeeds. -/
def amplePools : PoolSupply where
  refs n := some (n + 7)
  malloc n := some (100 * (n + 1))

/-- The pool is out of order from the start. Then two coroutines are given back one after the other: the second
    takes the node of the first, which then links to itself, and two requests get the same coroutine. -/
theorem thread_pool_shared : ¬ (initUtilCall amplePools).Good amplePools ∧
    ∃ s, poolCalls amplePools (initUtilCall amplePools)
        [.new, .new, .delete 0 7, .delete 1 8, .new, .new] = .ok s ∧
      s.held = [(1, 8), (1, 8)] ∧ ¬ (s.held.map Prod.fst).Nodup := by
  refine ⟨initUtilCall_not_good rfl, _, rfl, rfl, ?_⟩
  decide

end Yaos
