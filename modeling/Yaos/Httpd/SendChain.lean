import Mathlib.Algebra.Group.Nat.Defs
import Mathlib.Data.List.Basic
import Mathlib.Logic.Function.Basic
import Yaos.Fault
import Yaos.Lib.Run

set_option autoImplicit false

/-! # Sending a chain of buffers (`module/httpd/httpd.c`, `module/httpd/buf.c`)

`http_send_content` appends the links of a chain to `hs->out` and hands the buffer of the first one to
TCP. Each time that TCP reports bytes as sent, `http_sent` hands over the next piece, and the end of the
last buffer ends the request.

Buffers are numbered, and links of several chains can lead to the same one. Memory for the links is
always found. -/

namespace Yaos

/-- The answers of the TCP layer that the code tells apart. -/
inductive TcpErr
  | ok
  | mem
  | other
deriving DecidableEq, Repr

/-- What TCP answers during one call of `http_write`: `altcp_sndbuf`, and for each length that is tried,
    what `altcp_write` returns and whether there is nothing to be gained from a smaller one. -/
structure TcpLayer where
  sndbuf : Nat
  write : Nat → TcpErr
  full : Nat → Bool

/-- TCP has `start..last` of the buffer and not yet `last..end`. -/
structure HttpdBuf where
  done : List UInt8
  rest : List UInt8

/-- The bytes of a buffer. -/
def HttpdBuf.text (b : HttpdBuf) : List UInt8 := b.done ++ b.rest

/-- `p->last = p->last + len`. -/
def HttpdBuf.advance (b : HttpdBuf) (len : Nat) : HttpdBuf :=
  { done := b.done ++ b.rest.take len, rest := b.rest.drop len }

/-- A connection. Beside the source's own data, it records what `altcp_write` took. -/
structure HttpState where
  bufs : Nat → HttpdBuf
  /-- The buffers that the links of `hs->out` lead to. -/
  out : List Nat
  written : List UInt8
  /-- The number of bytes that `http_sent` was told of. -/
  reported : Nat
  /-- `http_eof` closed the connection and freed the state. -/
  freed : Bool

/-- The loop of `http_write`, which tries smaller and smaller lengths. -/
def tryWrite (tcp : TcpLayer) (len : Nat) : TcpErr × Nat :=
  match tcp.write len with
  | .mem =>
      if 1 < (if tcp.full len then 1 else len / 2) then tryWrite tcp (len / 2)
      else (.mem, if tcp.full len then 1 else len / 2)
  | err => (err, len)
termination_by len
decreasing_by
  split at *
  · contradiction
  · omega

/-- `http_write`. -/
def httpWrite (tcp : TcpLayer) (length : Nat) : TcpErr × Nat :=
  if length = 0 then (.ok, 0)
  else
    match tryWrite tcp (min length (tcp.sndbuf % 2 ^ 16)) with
    | (.ok, len) => (.ok, len)
    | (err, _) => (err, 0)

/-- No request sets `keepalive`, so the connection is closed. -/
def httpEof (hs : HttpState) : HttpState := { hs with freed := true }

/-- TCP takes `len` bytes of the buffer `p`. -/
def HttpState.advance (hs : HttpState) (p len : Nat) : HttpState :=
  { hs with
    bufs := Function.update hs.bufs p ((hs.bufs p).advance len)
    written := hs.written ++ (hs.bufs p).rest.take len }

/-- `http_send_chain`. -/
def httpSendChain (tcp : TcpLayer) (hs : HttpState) : HttpState :=
  match hs.out with
  | [] => httpEof hs
  | p :: next =>
      match httpWrite tcp (min (hs.bufs p).rest.length 0xffff) with
      | (.ok, len) =>
          if ((hs.advance p len).bufs p).rest = [] then
            if next = [] then httpEof { hs.advance p len with out := next }
            else { hs.advance p len with out := next }
          else hs.advance p len
      | _ => hs

/-- `httpd_chain_add_copy`: the new links go behind the old ones. -/
def httpdChainAddCopy (chain out : List Nat) : List Nat := chain ++ out

/-- `http_send_content`. -/
def httpSendContent (tcp : TcpLayer) (hs : HttpState) (out : List Nat) : Except Fault HttpState :=
  if hs.freed then .error .freed
  else .ok (httpSendChain tcp { hs with out := httpdChainAddCopy hs.out out })

/-- TCP reports up to `len` of the bytes that it has not reported yet. -/
def HttpState.report (hs : HttpState) (len : Nat) : HttpState :=
  { hs with reported := hs.reported + min len (hs.written.length - hs.reported) }

/-- A closed connection has no callbacks. -/
def httpSent (tcp : TcpLayer) (hs : HttpState) (len : Nat) : HttpState :=
  if hs.freed then hs else httpSendChain tcp (hs.report len)

/-! ## What TCP takes -/

/-- Starting with `len`, TCP takes `n` bytes in the end. -/
inductive Takes (tcp : TcpLayer) : Nat → Nat → Prop
  | all {len : Nat} : tcp.write len = .ok → Takes tcp len len
  | less {len n : Nat} : tcp.write len = .mem → tcp.full len = false → 1 < len / 2 →
      Takes tcp (len / 2) n → Takes tcp len n

theorem Takes.le {tcp : TcpLayer} {len n : Nat} (h : Takes tcp len n) : n ≤ len := by
  induction h with
  | all _ => exact Nat.le_refl _
  | less _ _ _ _ ih => exact Nat.le_trans ih (Nat.div_le_self _ _)

theorem tryWrite_eq_ok_iff {tcp : TcpLayer} {len n : Nat} :
    tryWrite tcp len = (.ok, n) ↔ Takes tcp len n := by
  fun_induction tryWrite tcp len with
  | case1 len hmem hless ih =>
      rw [ih]
      have hfull : tcp.full len = false := by
        by_contra hfull
        rw [dif_pos (by simpa using hfull)] at hless
        omega
      simp only [hfull] at hless
      refine ⟨fun h => .less hmem hfull hless h, fun h => ?_⟩
      · cases h with
        | all hok => rw [hmem] at hok; cases hok
        | less _ _ _ h => exact h
  | case2 len hmem hless =>
      refine iff_of_false (by simp) fun h => ?_
      cases h with
      | all hok => rw [hmem] at hok; cases hok
      | less _ hfull hlen _ => exact hless (by simpa [hfull] using hlen)
  | case3 len herr =>
      constructor
      · intro h
        obtain ⟨hok, rfl⟩ := Prod.mk.inj h
        exact .all hok
      · intro h
        cases h with
        | all hok => rw [hok]
        | less hmem _ _ _ => exact absurd hmem herr

/-- TCP takes `n` bytes of a buffer; of an empty one it takes nothing, without being asked. -/
def Sends (tcp : TcpLayer) (b : HttpdBuf) (n : Nat) : Prop :=
  (b.rest = [] ∧ n = 0) ∨
    (b.rest ≠ [] ∧ Takes tcp (min (min b.rest.length 0xffff) (tcp.sndbuf % 2 ^ 16)) n)

/-- TCP takes `n` bytes at once. -/
def TakesAll (tcp : TcpLayer) (n : Nat) : Prop :=
  n = 0 ∨ (n ≤ 0xffff ∧ n ≤ tcp.sndbuf % 2 ^ 16 ∧ tcp.write n = .ok)

theorem httpWrite_eq_ok_iff {tcp : TcpLayer} {b : HttpdBuf} {n : Nat} :
    httpWrite tcp (min b.rest.length 0xffff) = (.ok, n) ↔ Sends tcp b n := by
  by_cases hrest : b.rest = []
  · simp [httpWrite, Sends, hrest, eq_comm]
  · have hlen : min b.rest.length 0xffff ≠ 0 := by
      have := List.length_pos_iff.2 hrest
      omega
    rw [httpWrite, if_neg hlen, Sends, ← tryWrite_eq_ok_iff]
    cases tryWrite tcp (min (min b.rest.length 0xffff) (tcp.sndbuf % 2 ^ 16)) with
    | mk err len => cases err <;> simp [hrest]

theorem Sends.le {tcp : TcpLayer} {b : HttpdBuf} {n : Nat} (h : Sends tcp b n) : n ≤ b.rest.length := by
  rcases h with ⟨-, rfl⟩ | ⟨-, h⟩
  · exact Nat.zero_le _
  · have := h.le
    omega

theorem sends_all_iff {tcp : TcpLayer} {b : HttpdBuf} :
    Sends tcp b b.rest.length ↔ TakesAll tcp b.rest.length := by
  by_cases hrest : b.rest = []
  · simp [Sends, TakesAll, hrest]
  · have hlen := List.length_pos_iff.2 hrest
    constructor
    · rintro (⟨h, -⟩ | ⟨-, h⟩)
      · exact absurd h hrest
      · -- no length below the whole is taken as the whole
        have hle := h.le
        have hmin : min (min b.rest.length 0xffff) (tcp.sndbuf % 2 ^ 16) = b.rest.length := by omega
        rw [hmin] at h
        cases h with
        | all hok => exact .inr ⟨by omega, by omega, hok⟩
        | less _ _ hhalf h =>
            have := h.le
            omega
    · rintro (h | ⟨hpiece, hroom, hok⟩)
      · omega
      · refine .inr ⟨hrest, ?_⟩
        rw [Nat.min_eq_left hpiece, Nat.min_eq_left hroom]
        exact .all hok

theorem Sends.unique {tcp : TcpLayer} {b : HttpdBuf} {n m : Nat} (h : Sends tcp b n)
    (h' : Sends tcp b m) : n = m :=
  (Prod.mk.inj ((httpWrite_eq_ok_iff.2 h).symm.trans (httpWrite_eq_ok_iff.2 h'))).2

/-! ## What one call does -/

@[simp] theorem HttpdBuf.advance_text (b : HttpdBuf) (n : Nat) : (b.advance n).text = b.text := by
  simp [HttpdBuf.advance, HttpdBuf.text]

@[simp] theorem HttpdBuf.advance_rest (b : HttpdBuf) (n : Nat) : (b.advance n).rest = b.rest.drop n := rfl

@[simp] theorem HttpdBuf.advance_done (b : HttpdBuf) (n : Nat) :
    (b.advance n).done = b.done ++ b.rest.take n := rfl

@[simp] theorem HttpState.advance_self (hs : HttpState) (p n : Nat) :
    (hs.advance p n).bufs p = (hs.bufs p).advance n := Function.update_self ..

theorem HttpState.advance_other (hs : HttpState) (n : Nat) {p q : Nat} (h : q ≠ p) :
    (hs.advance p n).bufs q = hs.bufs q := Function.update_of_ne h ..

/-- The ways that `http_send_chain` leaves the connection. -/
inductive SendStep (tcp : TcpLayer) (hs : HttpState) : HttpState → Prop
  | ended (hout : hs.out = []) : SendStep tcp hs (httpEof hs)
  | refused {p : Nat} {next : List Nat} (hout : hs.out = p :: next)
      (hno : ∀ n, ¬ Sends tcp (hs.bufs p) n) : SendStep tcp hs hs
  | part {p n : Nat} {next : List Nat} (hout : hs.out = p :: next) (hsend : Sends tcp (hs.bufs p) n)
      (hlt : n < (hs.bufs p).rest.length) : SendStep tcp hs (hs.advance p n)
  | whole {p : Nat} {next : List Nat} (hout : hs.out = p :: next) (hne : next ≠ [])
      (hsend : Sends tcp (hs.bufs p) (hs.bufs p).rest.length) :
      SendStep tcp hs { hs.advance p (hs.bufs p).rest.length with out := next }
  | last {p : Nat} (hout : hs.out = [p]) (hsend : Sends tcp (hs.bufs p) (hs.bufs p).rest.length) :
      SendStep tcp hs (httpEof { hs.advance p (hs.bufs p).rest.length with out := [] })

theorem httpSendChain_step (tcp : TcpLayer) (hs : HttpState) :
    SendStep tcp hs (httpSendChain tcp hs) := by
  cases hout : hs.out with
  | nil =>
      rw [httpSendChain, hout]
      exact .ended hout
  | cons p next =>
      simp only [httpSendChain, hout]
      cases hwrite : httpWrite tcp (min (hs.bufs p).rest.length 0xffff) with
      | mk err n =>
          cases err with
          | ok =>
              have hsend : Sends tcp (hs.bufs p) n := httpWrite_eq_ok_iff.1 hwrite
              have hle := hsend.le
              have hdrop : ((hs.advance p n).bufs p).rest = [] ↔ (hs.bufs p).rest.length ≤ n := by
                rw [HttpState.advance_self, HttpdBuf.advance_rest, List.drop_eq_nil_iff]
              dsimp only
              by_cases hall : (hs.bufs p).rest.length ≤ n
              · rw [if_pos (hdrop.2 hall)]
                obtain rfl : n = (hs.bufs p).rest.length := Nat.le_antisymm hle hall
                by_cases hnext : next = []
                · subst hnext
                  exact .last hout hsend
                · rw [if_neg hnext]
                  exact .whole hout hnext hsend
              · rw [if_neg (hdrop.not.2 hall)]
                exact .part hout hsend (Nat.lt_of_not_le hall)
          | mem =>
              refine .refused hout fun n hsend => ?_
              rw [httpWrite_eq_ok_iff.2 hsend] at hwrite
              cases hwrite
          | other =>
              refine .refused hout fun n hsend => ?_
              rw [httpWrite_eq_ok_iff.2 hsend] at hwrite
              cases hwrite

/-- The call ends the request: nothing is left to send, or only the rest of one buffer, which TCP takes
    at once. -/
def HttpState.Finishes (tcp : TcpLayer) (hs : HttpState) : Prop :=
  hs.out = [] ∨ ∃ p, hs.out = [p] ∧ TakesAll tcp (hs.bufs p).rest.length

/-! ## A transfer that goes on

The next piece is sent when TCP reports bytes, so as long as there is something to send, TCP must have
bytes that it has not reported. -/

/-- While there is something to send, a callback is still to come. -/
def HttpState.Flowing (hs : HttpState) : Prop := hs.out ≠ [] → hs.reported < hs.written.length

/-- The call ends the request, or TCP still has bytes to report, or it takes some of the first buffer. -/
def HttpState.Moves (tcp : TcpLayer) (hs : HttpState) : Prop :=
  hs.Finishes tcp ∨ hs.reported < hs.written.length ∨
    ∃ p next n, hs.out = p :: next ∧ 0 < n ∧ Sends tcp (hs.bufs p) n

section Flow

variable {tcp : TcpLayer} {hs : HttpState} {p n : Nat} {next : List Nat}

theorem finishes_cons (hout : hs.out = p :: next) :
    hs.Finishes tcp ↔ next = [] ∧ Sends tcp (hs.bufs p) (hs.bufs p).rest.length := by
  constructor
  · rintro (hnil | ⟨q, hone, hall⟩)
    · rw [hout] at hnil
      cases hnil
    · obtain ⟨rfl, rfl⟩ := List.cons.inj (hout.symm.trans hone)
      exact ⟨rfl, sends_all_iff.2 hall⟩
  · rintro ⟨rfl, hsend⟩
    exact .inr ⟨p, hout, sends_all_iff.1 hsend⟩

theorem moves_of_refused (hout : hs.out = p :: next) (hno : ∀ n, ¬ Sends tcp (hs.bufs p) n) :
    hs.Moves tcp ↔ hs.reported < hs.written.length := by
  refine ⟨?_, fun h => .inr (.inl h)⟩
  rintro (hfin | h | ⟨q, next', n, hout', -, hsend⟩)
  · exact absurd ((finishes_cons hout).1 hfin).2 (hno _)
  · exact h
  · obtain ⟨rfl, -⟩ := List.cons.inj (hout.symm.trans hout')
    exact absurd hsend (hno n)

theorem moves_of_sends (h : hs.reported ≤ hs.written.length) (hout : hs.out = p :: next)
    (hsend : Sends tcp (hs.bufs p) n) :
    hs.Moves tcp ↔ (next = [] ∧ n = (hs.bufs p).rest.length) ∨ hs.reported < hs.written.length + n := by
  constructor
  · rintro (hfin | h | ⟨q, next', m, hout', hm, hsend'⟩)
    · obtain ⟨hnext, hall⟩ := (finishes_cons hout).1 hfin
      exact .inl ⟨hnext, hsend.unique hall⟩
    · exact .inr (Nat.lt_add_right n h)
    · obtain ⟨rfl, -⟩ := List.cons.inj (hout.symm.trans hout')
      obtain rfl := hsend.unique hsend'
      exact .inr (by omega)
  · rintro (⟨hnext, rfl⟩ | h)
    · exact .inl ((finishes_cons hout).2 ⟨hnext, hsend⟩)
    · by_cases hn : 0 < n
      · exact .inr (.inr ⟨p, next, n, hout, hn, hsend⟩)
      · exact .inr (.inl (by omega))

/-- The call leaves the transfer flowing exactly when something moves. -/
theorem flowing_iff_moves (h : hs.reported ≤ hs.written.length) :
    (httpSendChain tcp hs).Flowing ↔ hs.Moves tcp := by
  have hstep := httpSendChain_step tcp hs
  generalize httpSendChain tcp hs = hs' at hstep
  cases hstep with
  | ended hout => exact iff_of_true (fun hne => absurd hout hne) (.inl (.inl hout))
  | last hout hsend =>
      exact iff_of_true (fun hne => absurd rfl hne) (.inl ((finishes_cons hout).2 ⟨rfl, hsend⟩))
  | refused hout hno =>
      rw [moves_of_refused hout hno]
      exact ⟨fun hflow => hflow (by simp [hout]), fun h _ => h⟩
  | @part p n next hout hsend hlt =>
      rw [moves_of_sends h hout hsend]
      have hwritten : (hs.advance p n).written.length = hs.written.length + n := by
        simp [HttpState.advance, Nat.min_eq_left (Nat.le_of_lt hlt)]
      refine ⟨fun hflow => .inr ?_, fun hmoves _ => ?_⟩
      · rw [← hwritten]
        exact hflow (by simp [HttpState.advance, hout])
      · show hs.reported < (hs.advance p n).written.length
        rw [hwritten]
        exact hmoves.resolve_left fun hall => absurd hall.2 (Nat.ne_of_lt hlt)
  | @whole p next hout hnext hsend =>
      rw [moves_of_sends h hout hsend]
      have hwritten : (hs.advance p (hs.bufs p).rest.length).written.length =
          hs.written.length + (hs.bufs p).rest.length := by simp [HttpState.advance]
      refine ⟨fun hflow => .inr ?_, fun hmoves _ => ?_⟩
      · rw [← hwritten]
        exact hflow hnext
      · show hs.reported < (hs.advance p (hs.bufs p).rest.length).written.length
        rw [hwritten]
        exact hmoves.resolve_left fun hall => absurd hall.1 hnext

end Flow

/-! ## Runs -/

/-- What the connection comes to. -/
inductive SendEvent
  | content (tcp : TcpLayer) (out : List Nat)
  | sent (tcp : TcpLayer) (len : Nat)

/-- One event. -/
def sendEvent (hs : HttpState) : SendEvent → Except Fault HttpState
  | .content tcp out => httpSendContent tcp hs out
  | .sent tcp len => .ok (httpSent tcp hs len)

/-- A new connection, with the buffers as they will be filled. -/
def newState (bufs : Nat → HttpdBuf) : HttpState :=
  { bufs := bufs, out := [], written := [], reported := 0, freed := false }

/-- Something moves in the call of `http_send_chain` that the event leads to. -/
def SendEvent.Moves (hs : HttpState) : SendEvent → Prop
  | .content tcp out => HttpState.Moves tcp { hs with out := httpdChainAddCopy hs.out out }
  | .sent tcp len => (hs.report len).Moves tcp

/-- What every connection keeps. -/
structure HttpState.Coherent (hs : HttpState) : Prop where
  reported : hs.reported ≤ hs.written.length
  ended : hs.freed = true → hs.out = []

section Runs

variable {tcp : TcpLayer} {hs hs' : HttpState}

theorem SendStep.reported_le (h : SendStep tcp hs hs') (hle : hs.reported ≤ hs.written.length) :
    hs'.reported ≤ hs'.written.length := by
  have hadvance : ∀ p n, hs.reported ≤ (hs.advance p n).written.length := fun p n => by
    simp only [HttpState.advance, List.length_append]
    omega
  cases h with
  | ended _ => exact hle
  | refused _ _ => exact hle
  | part _ _ _ => exact hadvance _ _
  | whole _ _ _ => exact hadvance _ _
  | last _ _ => exact hadvance _ _

theorem SendStep.ended_of (h : SendStep tcp hs hs') (hfreed : hs.freed = false)
    (hend : hs'.freed = true) : hs'.out = [] := by
  cases h with
  | ended hout => exact hout
  | refused _ _ => rw [hfreed] at hend; cases hend
  | part _ _ _ => exact absurd (hfreed.symm.trans hend) Bool.false_ne_true
  | whole _ _ _ => exact absurd (hfreed.symm.trans hend) Bool.false_ne_true
  | last _ _ => rfl

theorem httpSendChain_coherent (hle : hs.reported ≤ hs.written.length) (hfreed : hs.freed = false) :
    (httpSendChain tcp hs).Coherent :=
  ⟨(httpSendChain_step tcp hs).reported_le hle, (httpSendChain_step tcp hs).ended_of hfreed⟩

theorem HttpState.report_le {len : Nat} (h : hs.reported ≤ hs.written.length) :
    (hs.report len).reported ≤ (hs.report len).written.length := by
  simp only [HttpState.report]
  omega

/-- An event leaves the transfer flowing exactly when something moves in it. -/
theorem sendEvent_flowing_iff {e : SendEvent} (h : hs.Coherent) (hok : sendEvent hs e = .ok hs') :
    hs'.Coherent ∧ (hs'.Flowing ↔ e.Moves hs) := by
  cases e with
  | content tcp out =>
      simp only [sendEvent, httpSendContent] at hok
      split at hok
      · cases hok
      · rw [← Except.ok.inj hok]
        exact ⟨httpSendChain_coherent h.reported (Bool.eq_false_iff.2 ‹_›), flowing_iff_moves h.reported⟩
  | sent tcp len =>
      rw [← Except.ok.inj hok, httpSent]
      split
      · -- the connection is closed, and there is nothing left to send
        have hnil : hs.out = [] := h.ended ‹_›
        exact ⟨h, iff_of_true (fun hne => absurd hnil hne) (.inl (.inl hnil))⟩
      · exact ⟨httpSendChain_coherent (HttpState.report_le h.reported) (Bool.eq_false_iff.2 ‹_›),
          flowing_iff_moves (HttpState.report_le h.reported)⟩

/-- **The response cannot stall.** Throughout a run on a new connection, as long as there is something to
    send TCP has bytes to report, if and only if something moves at every event. -/
theorem transfer_flows_iff (bufs : Nat → HttpdBuf) (es : List SendEvent) :
    (∀ pre, pre <+: es → ∀ hs, pre.foldlM sendEvent (newState bufs) = .ok hs → hs.Flowing) ↔
      Run.AllSafe sendEvent (fun hs e => e.Moves hs) (newState bufs) es := by
  have hnew : (newState bufs).Coherent ∧ (newState bufs).Flowing :=
    ⟨⟨Nat.zero_le _, fun _ => rfl⟩, fun hne => absurd rfl hne⟩
  refine Run.good_iff_allSafe (fun (hs : HttpState) (h : hs.Coherent ∧ hs.Flowing) => h.2)
    (fun e hs hs' h hok hmoves => ?_) (fun e hs hs' h hok hflow => ?_) hnew
  · obtain ⟨hcoherent, hiff⟩ := sendEvent_flowing_iff h.1 hok
    exact ⟨hcoherent, hiff.2 hmoves⟩
  · exact (sendEvent_flowing_iff h.1 hok).2.1 hflow

/-- The TCP layer that takes everything. -/
def tcpTakesAll : TcpLayer where
  sndbuf := 0xffff
  write _ := .ok
  full _ := false

/-- An empty buffer in front of another one: it is passed over, and nothing asks for the next. -/
theorem transfer_stalls : ∃ bufs hs, (bufs 0).rest = [] ∧ (bufs 1).rest = [0x78] ∧
    sendEvent (newState bufs) (.content tcpTakesAll [0, 1]) = .ok hs ∧ hs.out = [1] ∧ ¬ hs.Flowing := by
  refine ⟨fun i => if i = 0 then ⟨[], []⟩ else ⟨[], [0x78]⟩, _, rfl, rfl, rfl, rfl, fun h => ?_⟩
  exact absurd (h (by decide)) (by decide)

end Runs

end Yaos
