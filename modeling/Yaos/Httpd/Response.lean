import Mathlib.Data.List.Range
import Yaos.Httpd.SendChain

set_option autoImplicit false

/-! # The body of a response (`module/lua/http/content.c`, `module/lua/http/util.c`)

`ngx.say` appends a buffer to `ctx->out`, and `ngx.flush` has all of `ctx->out` copied to `hs->out`.
`ctx->out` is never cleared, so each flush queues the old buffers again. They are empty by the time
their second links come up. -/

namespace Yaos

/-- A request that runs in Lua. Its buffers are numbered in the order of their making. -/
structure Response where
  hs : HttpState
  /-- The buffers that the links of `ctx->out` lead to. -/
  ctxOut : List Nat
  said : Nat

/-- `http_lua_send_chain_link`: the link goes to the end. -/
def httpLuaSendChainLink (out : List Nat) (link : Nat) : List Nat := out ++ [link]

/-- `ngx_lua_say`, with a buffer for the text. -/
def ngxLuaSay (r : Response) (s : List UInt8) : Response where
  hs := { r.hs with bufs := Function.update r.hs.bufs r.said { done := [], rest := s } }
  ctxOut := httpLuaSendChainLink r.ctxOut r.said
  said := r.said + 1

/-- `http_lua_flush_output`. It does not clear `ctx->out`. -/
def httpLuaFlushOutput (tcp : TcpLayer) (r : Response) : Except Fault Response :=
  if r.ctxOut ≠ [] then do
    let hs ← httpSendContent tcp r.hs r.ctxOut
    .ok { r with hs := hs }
  else .ok r

/-- What happens to a response. -/
inductive ResponseEvent
  | say (s : List UInt8)
  | flush (tcp : TcpLayer)
  | sent (tcp : TcpLayer) (len : Nat)

/-- One event. -/
def responseEvent (r : Response) : ResponseEvent → Except Fault Response
  | .say s => .ok (ngxLuaSay r s)
  | .flush tcp => httpLuaFlushOutput tcp r
  | .sent tcp len => .ok { r with hs := httpSent tcp r.hs len }

/-- Before the first event. -/
def newResponse : Response where
  hs := newState fun _ => { done := [], rest := [] }
  ctxOut := []
  said := 0

/-- What the script says. -/
def ResponseEvent.text : ResponseEvent → List UInt8
  | .say s => s
  | _ => []

/-- What `ngx.say` is given throughout a run. -/
def bodyText (es : List ResponseEvent) : List UInt8 := es.flatMap ResponseEvent.text

/-- What `ngx.say` was given so far. -/
def Response.text (r : Response) : List UInt8 :=
  (List.range r.said).flatMap fun i => (r.hs.bufs i).text

/-- The event ends the request only when all that was said is written or about to be, and after the end
    nothing more is said or flushed. -/
def ResponseEvent.Fits (r : Response) : ResponseEvent → Prop
  | .say s => r.hs.freed = true → s = []
  | .flush _ => r.hs.freed = true → r.ctxOut = []
  | .sent tcp _ => r.hs.freed = false → r.hs.Finishes tcp →
      ∀ i ∈ r.ctxOut, i ∉ r.hs.out → (r.hs.bufs i).rest = []

/-! ## Buffers in a row -/

section Row

variable {bufs : Nat → HttpdBuf} {n : Nat}

/-- Bytes are taken from a buffer only when the ones before it are empty. -/
def TakenInOrder (bufs : Nat → HttpdBuf) (n : Nat) : Prop :=
  ∀ i j, i < j → j < n → (bufs j).done ≠ [] → (bufs i).rest = []

theorem flatMap_done_prefix (h : TakenInOrder bufs n) :
    ((List.range n).flatMap fun i => (bufs i).done) <+: (List.range n).flatMap fun i => (bufs i).text := by
  induction n with
  | zero => exact List.nil_prefix
  | succ n ih =>
      have hrow := ih fun i j hij hj => h i j hij (Nat.lt_succ_of_lt hj)
      simp only [List.range_succ, List.flatMap_append, List.flatMap_singleton]
      by_cases hdone : (bufs n).done = []
      · rw [hdone, List.append_nil]
        exact hrow.trans (List.prefix_append _ _)
      · -- the buffers before it are done with
        have hall : ∀ i ∈ List.range n, (bufs i).done = (bufs i).text := fun i hi => by
          rw [HttpdBuf.text, h i n (List.mem_range.1 hi) (Nat.lt_succ_self n) hdone, List.append_nil]
        rw [List.flatMap_congr hall, HttpdBuf.text, ← List.append_assoc]
        exact List.prefix_append _ _

theorem length_flatMap_text : ((List.range n).flatMap fun i => (bufs i).text).length =
    ((List.range n).flatMap fun i => (bufs i).done).length +
      ((List.range n).flatMap fun i => (bufs i).rest).length := by
  induction n with
  | zero => rfl
  | succ n ih =>
      have htext : (bufs n).text.length = (bufs n).done.length + (bufs n).rest.length :=
        List.length_append
      simp only [List.range_succ, List.flatMap_append, List.flatMap_singleton, List.length_append, ih]
      omega

theorem flatMap_done_eq_text_iff :
    ((List.range n).flatMap fun i => (bufs i).done) = ((List.range n).flatMap fun i => (bufs i).text) ↔
      ∀ i < n, (bufs i).rest = [] := by
  constructor
  · intro heq i hi
    have hlen := @length_flatMap_text bufs n
    have hnil : ((List.range n).flatMap fun i => (bufs i).rest) = [] := by
      rw [← List.length_eq_zero_iff]
      rw [heq] at hlen
      omega
    exact List.flatMap_eq_nil_iff.1 hnil i (List.mem_range.2 hi)
  · intro hall
    refine List.flatMap_congr fun i hi => ?_
    rw [HttpdBuf.text, hall i (List.mem_range.1 hi), List.append_nil]

/-- Bytes taken from a buffer of a row come behind all that were taken before. -/
theorem flatMap_done_advance (h : TakenInOrder bufs n) {p k : Nat} (hp : p < n) :
    ((List.range n).flatMap fun i => (Function.update bufs p ((bufs p).advance k) i).done) =
      ((List.range n).flatMap fun i => (bufs i).done) ++ (bufs p).rest.take k := by
  induction n with
  | zero => exact absurd hp (Nat.not_lt_zero p)
  | succ n ih =>
      simp only [List.range_succ, List.flatMap_append, List.flatMap_singleton]
      rcases Nat.lt_succ_iff_lt_or_eq.1 hp with hlt | rfl
      · rw [ih (fun i j hij hj => h i j hij (Nat.lt_succ_of_lt hj)) hlt,
          Function.update_of_ne (Nat.ne_of_gt hlt)]
        by_cases hrest : (bufs p).rest = []
        · simp [hrest]
        · -- nothing was taken from a later buffer
          have hdone : (bufs n).done = [] := by
            by_contra hne
            exact hrest (h p n hlt (Nat.lt_succ_self n) hne)
          simp [hdone]
      · have hcongr : ∀ i ∈ List.range p, (Function.update bufs p ((bufs p).advance k) i).done =
            (bufs i).done := fun i hi => by
          rw [Function.update_of_ne (Nat.ne_of_lt (List.mem_range.1 hi))]
        rw [List.flatMap_congr hcongr, Function.update_self, HttpdBuf.advance_done, List.append_assoc]

theorem TakenInOrder.advance (h : TakenInOrder bufs n) {p : Nat} (hfirst : ∀ i < p, (bufs i).rest = [])
    (k : Nat) : TakenInOrder (Function.update bufs p ((bufs p).advance k)) n := by
  intro i j hij hj hdone
  have hrest : (bufs i).rest = [] := by
    by_cases hjp : j = p
    · exact hfirst i (hjp ▸ hij)
    · rw [Function.update_of_ne hjp] at hdone
      exact h i j hij hj hdone
  by_cases hip : i = p
  · subst hip
    simp [hrest]
  · rw [Function.update_of_ne hip]
    exact hrest

end Row

/-! ## What every run keeps -/

/-- The links of `hs->out` come in an order in which the buffers before each one's are empty already, or
    have a link before it. -/
def LinksInOrder (bufs : Nat → HttpdBuf) (out : List Nat) : Prop :=
  ∀ pre p post, out = pre ++ p :: post → ∀ i < p, (bufs i).rest = [] ∨ i ∈ pre

section Links

variable {bufs bufs' : Nat → HttpdBuf} {out next : List Nat} {p n : Nat}

theorem LinksInOrder.congr (h : LinksInOrder bufs out)
    (hempty : ∀ q ∈ out, ∀ i < q, (bufs i).rest = [] → (bufs' i).rest = []) : LinksInOrder bufs' out := by
  intro pre q post hsplit i hi
  have hq : q ∈ out := hsplit ▸ List.mem_append_right _ List.mem_cons_self
  exact (h pre q post hsplit i hi).imp_left (hempty q hq i hi)

theorem LinksInOrder.first (h : LinksInOrder bufs (p :: next)) : ∀ i < p, (bufs i).rest = [] := fun i hi =>
  (h [] p next rfl i hi).resolve_right List.not_mem_nil

/-- The first link is dropped once its buffer is empty. -/
theorem LinksInOrder.tail (h : LinksInOrder bufs (p :: next)) (hp : (bufs p).rest = []) :
    LinksInOrder bufs next := by
  intro pre q post hsplit i hi
  rcases h (p :: pre) q post (by rw [hsplit, List.cons_append]) i hi with hempty | hmem
  · exact .inl hempty
  · rcases List.mem_cons.1 hmem with rfl | hmem
    · exact .inl hp
    · exact .inr hmem

theorem mem_of_range_eq {pre post : List Nat} {q i : Nat} (h : List.range n = pre ++ q :: post)
    (hi : i < q) : i ∈ pre := by
  have hq : q ∈ List.range n := h ▸ List.mem_append_right _ List.mem_cons_self
  have hmem : i ∈ List.range n := List.mem_range.2 (hi.trans (List.mem_range.1 hq))
  have hsorted : (pre ++ q :: post).Pairwise (· < ·) := h ▸ List.pairwise_lt_range
  rw [h] at hmem
  rcases List.mem_append.1 hmem with hmem | hmem
  · exact hmem
  · rcases List.mem_cons.1 hmem with rfl | hmem
    · exact absurd hi (Nat.lt_irrefl _)
    · have hlt := (List.pairwise_cons.1 (List.pairwise_append.1 hsorted).2.1).1 i hmem
      exact absurd hi (Nat.lt_asymm hlt)

/-- A flush appends the links of all buffers. -/
theorem LinksInOrder.append_range (h : LinksInOrder bufs out) : LinksInOrder bufs (out ++ List.range n) := by
  intro pre q post hsplit i hi
  rcases List.append_eq_append_iff.1 hsplit with ⟨mid, rfl, hrange⟩ | ⟨mid, rfl, hpost⟩
  · -- the link is one of the new ones, and those before it are too
    exact .inr (List.mem_append_right _ (mem_of_range_eq hrange hi))
  · cases mid with
    | nil =>
        have hrange : List.range n = [] ++ q :: post := hpost.symm
        exact absurd (mem_of_range_eq hrange hi) List.not_mem_nil
    | cons q' mid =>
        obtain ⟨rfl, rfl⟩ := List.cons.inj hpost
        exact h pre q mid rfl i hi

end Links

/-- The buffers have been made, linked and written in order. -/
structure Response.Ordered (r : Response) : Prop where
  ctxOut : r.ctxOut = List.range r.said
  said : ∀ p ∈ r.hs.out, p < r.said
  links : LinksInOrder r.hs.bufs r.hs.out
  taken : TakenInOrder r.hs.bufs r.said
  written : r.hs.written = (List.range r.said).flatMap fun i => (r.hs.bufs i).done

section Ordered

variable {r r' : Response} {tcp : TcpLayer} {hs' : HttpState}

theorem newResponse_ordered : newResponse.Ordered :=
  ⟨rfl, fun _ hp => absurd hp List.not_mem_nil, fun pre p post hsplit => by simp [newResponse, newState] at hsplit,
    fun _ _ _ hj => absurd hj (Nat.not_lt_zero _), rfl⟩

theorem Response.Ordered.say (h : r.Ordered) (s : List UInt8) : (ngxLuaSay r s).Ordered := by
  have hold : ∀ i < r.said, (ngxLuaSay r s).hs.bufs i = r.hs.bufs i := fun i hi =>
    Function.update_of_ne (Nat.ne_of_lt hi) ..
  have hnew : ((ngxLuaSay r s).hs.bufs r.said).done = [] := by simp [ngxLuaSay]
  refine ⟨?_, fun p hp => Nat.lt_succ_of_lt (h.said p hp), ?_, ?_, ?_⟩
  · show r.ctxOut ++ [r.said] = List.range (r.said + 1)
    rw [h.ctxOut, List.range_succ]
  · refine h.links.congr fun q hq i hi hempty => ?_
    rw [hold i (hi.trans (h.said q hq))]
    exact hempty
  · intro i j hij hj hdone
    rcases Nat.lt_succ_iff_lt_or_eq.1 hj with hj | rfl
    · rw [hold j hj] at hdone
      rw [hold i (hij.trans hj)]
      exact h.taken i j hij hj hdone
    · exact absurd hnew hdone
  · show r.hs.written = (List.range (r.said + 1)).flatMap fun i => ((ngxLuaSay r s).hs.bufs i).done
    rw [List.range_succ, List.flatMap_append, List.flatMap_singleton, hnew, List.append_nil, h.written]
    exact List.flatMap_congr fun i hi => by rw [hold i (List.mem_range.1 hi)]

/-- TCP takes bytes of the first buffer. -/
theorem Response.Ordered.advance (h : r.Ordered) {p : Nat} {next : List Nat} (hout : r.hs.out = p :: next)
    (k : Nat) : Response.Ordered { r with hs := r.hs.advance p k } := by
  have hp : p < r.said := h.said p (hout ▸ List.mem_cons_self)
  have hfirst : ∀ i < p, (r.hs.bufs i).rest = [] := (hout ▸ h.links : LinksInOrder _ (p :: next)).first
  refine ⟨h.ctxOut, h.said, h.links.congr fun q _ i _ hempty => ?_, h.taken.advance hfirst k, ?_⟩
  · by_cases hip : i = p
    · subst hip
      simp [hempty]
    · show ((r.hs.advance p k).bufs i).rest = []
      rw [HttpState.advance_other _ _ hip]
      exact hempty
  · show r.hs.written ++ (r.hs.bufs p).rest.take k = _
    rw [h.written]
    exact (flatMap_done_advance h.taken hp).symm

theorem Response.Ordered.drop (h : r.Ordered) {p : Nat} {next : List Nat} (hout : r.hs.out = p :: next)
    (hp : (r.hs.bufs p).rest = []) : Response.Ordered { r with hs := { r.hs with out := next } } := by
  have hlinks : LinksInOrder r.hs.bufs (p :: next) := hout ▸ h.links
  exact ⟨h.ctxOut, fun q hq => h.said q (hout ▸ List.mem_cons_of_mem _ hq), hlinks.tail hp, h.taken,
    h.written⟩

theorem Response.Ordered.sendStep (h : r.Ordered) (hstep : SendStep tcp r.hs hs') :
    Response.Ordered { r with hs := hs' } := by
  have hwhole : ∀ {p : Nat} {next : List Nat}, r.hs.out = p :: next → Response.Ordered
      { r with hs := { r.hs.advance p (r.hs.bufs p).rest.length with out := next } } := fun hout =>
    (h.advance hout _).drop hout (by simp)
  cases hstep with
  | ended _ => exact ⟨h.ctxOut, h.said, h.links, h.taken, h.written⟩
  | refused _ _ => exact h
  | part hout _ _ => exact h.advance hout _
  | whole hout _ _ => exact hwhole hout
  | last hout _ =>
      have hlast := hwhole hout
      exact ⟨hlast.ctxOut, hlast.said, hlast.links, hlast.taken, hlast.written⟩

theorem Response.Ordered.queue (h : r.Ordered) :
    Response.Ordered { r with hs := { r.hs with out := httpdChainAddCopy r.hs.out r.ctxOut } } := by
  refine ⟨h.ctxOut, fun p hp => ?_, ?_, h.taken, h.written⟩
  · rcases List.mem_append.1 hp with hp | hp
    · exact h.said p hp
    · exact List.mem_range.1 (h.ctxOut ▸ hp)
  · show LinksInOrder r.hs.bufs (r.hs.out ++ r.ctxOut)
    rw [h.ctxOut]
    exact h.links.append_range

/-- What a flush that comes back does. -/
theorem httpLuaFlushOutput_cases (hok : httpLuaFlushOutput tcp r = .ok r') :
    (r.ctxOut = [] ∧ r' = r) ∨ (r.hs.freed = false ∧ r' = { r with
      hs := httpSendChain tcp { r.hs with out := httpdChainAddCopy r.hs.out r.ctxOut } }) := by
  rw [httpLuaFlushOutput] at hok
  split at hok
  · obtain ⟨hs, hsend, hok⟩ := bind_eq_ok.1 hok
    rw [httpSendContent] at hsend
    split at hsend
    · cases hsend
    · rw [← Except.ok.inj hok, ← Except.ok.inj hsend]
      exact .inr ⟨Bool.eq_false_iff.2 ‹_›, rfl⟩
  · exact .inl ⟨not_not.1 ‹_›, (Except.ok.inj hok).symm⟩

theorem responseEvent_ordered {e : ResponseEvent} (h : r.Ordered) (hok : responseEvent r e = .ok r') :
    r'.Ordered := by
  cases e with
  | say s =>
      obtain rfl := Except.ok.inj hok
      exact h.say s
  | flush tcp =>
      rcases httpLuaFlushOutput_cases hok with ⟨-, rfl⟩ | ⟨-, rfl⟩
      · exact h
      · exact h.queue.sendStep (httpSendChain_step _ _)
  | sent tcp len =>
      obtain rfl := Except.ok.inj hok
      rw [httpSent]
      split
      · exact h
      · have hreport : Response.Ordered { r with hs := r.hs.report len } :=
          ⟨h.ctxOut, h.said, h.links, h.taken, h.written⟩
        exact hreport.sendStep (httpSendChain_step _ _)

/-- **No byte goes wrong.** What TCP has taken is at every moment a prefix of what was said. -/
theorem Response.Ordered.written_prefix (h : r.Ordered) : r.hs.written <+: r.text :=
  h.written ▸ flatMap_done_prefix h.taken

theorem Response.Ordered.written_eq_text_iff (h : r.Ordered) :
    r.hs.written = r.text ↔ ∀ i < r.said, (r.hs.bufs i).rest = [] := by
  rw [h.written]
  exact flatMap_done_eq_text_iff

end Ordered

/-! ## The end of a request -/

/-- Where the request has ended, all that was said is written. -/
def Response.Complete (r : Response) : Prop := r.hs.freed = true → r.hs.written = r.text

section Ending

variable {r r' : Response} {tcp : TcpLayer} {hs hs' : HttpState}

theorem SendStep.freed_iff (h : SendStep tcp hs hs') (hfreed : hs.freed = false) :
    hs'.freed = true ↔ hs.Finishes tcp := by
  cases h with
  | ended hout => exact iff_of_true rfl (.inl hout)
  | last hout hsend => exact iff_of_true rfl ((finishes_cons hout).2 ⟨rfl, hsend⟩)
  | refused hout hno =>
      exact iff_of_false (by simp [hfreed]) fun hfin => hno _ ((finishes_cons hout).1 hfin).2
  | part hout hsend hlt =>
      refine iff_of_false (by simp [HttpState.advance, hfreed]) fun hfin => ?_
      exact Nat.ne_of_lt hlt (hsend.unique ((finishes_cons hout).1 hfin).2)
  | whole hout hne _ =>
      exact iff_of_false (by simp [HttpState.advance, hfreed]) fun hfin =>
        hne ((finishes_cons hout).1 hfin).1

/-- The call that ends the request empties the last buffer of `hs->out` and leaves the others. -/
theorem SendStep.rest_eq_nil_iff (h : SendStep tcp hs hs') (hfreed : hs.freed = false)
    (hend : hs'.freed = true) (i : Nat) :
    (hs'.bufs i).rest = [] ↔ i ∉ hs.out → (hs.bufs i).rest = [] := by
  have hfin := (h.freed_iff hfreed).1 hend
  cases h with
  | ended hout => simp [httpEof, hout]
  | refused hout hno => exact absurd ((finishes_cons hout).1 hfin).2 (hno _)
  | part hout hsend hlt =>
      exact absurd (hsend.unique ((finishes_cons hout).1 hfin).2) (Nat.ne_of_lt hlt)
  | whole hout hne _ => exact absurd ((finishes_cons hout).1 hfin).1 hne
  | @last p hout _ =>
      show ((hs.advance p (hs.bufs p).rest.length).bufs i).rest = [] ↔ _
      by_cases hip : i = p
      · subst hip
        simp [hout]
      · rw [HttpState.advance_other _ _ hip]
        simp [hout, hip]

theorem SendStep.text_eq (h : SendStep tcp hs hs') (i : Nat) : (hs'.bufs i).text = (hs.bufs i).text := by
  have hadvance : ∀ p k, ((hs.advance p k).bufs i).text = (hs.bufs i).text := fun p k => by
    by_cases hip : i = p
    · subst hip
      rw [HttpState.advance_self, HttpdBuf.advance_text]
    · rw [HttpState.advance_other _ _ hip]
  cases h with
  | ended _ => rfl
  | refused _ _ => rfl
  | part _ _ _ => exact hadvance _ _
  | whole _ _ _ => exact hadvance _ _
  | last _ _ => exact hadvance _ _

/-- A call of `http_send_chain` leaves the request complete exactly when it does not end it with text that
    is not queued. -/
theorem sendStep_complete_iff (h : r.Ordered) (hstep : SendStep tcp r.hs hs') (hfreed : r.hs.freed = false) :
    Response.Complete { r with hs := hs' } ↔
      (r.hs.Finishes tcp → ∀ i ∈ r.ctxOut, i ∉ r.hs.out → (r.hs.bufs i).rest = []) := by
  rw [← hstep.freed_iff hfreed]
  refine forall_congr' fun hend => ?_
  rw [(h.sendStep hstep).written_eq_text_iff, h.ctxOut]
  simp only [List.mem_range]
  exact forall₂_congr fun i _ => hstep.rest_eq_nil_iff hfreed hend i

theorem ngxLuaSay_text (r : Response) (s : List UInt8) : (ngxLuaSay r s).text = r.text ++ s := by
  simp only [Response.text, ngxLuaSay, List.range_succ, List.flatMap_append, List.flatMap_singleton,
    Function.update_self]
  congr 1
  exact List.flatMap_congr fun i hi => by rw [Function.update_of_ne (Nat.ne_of_lt (List.mem_range.1 hi))]

theorem say_complete_iff (h : r.Complete) (s : List UInt8) :
    (ngxLuaSay r s).Complete ↔ (r.hs.freed = true → s = []) := by
  refine forall_congr' fun hend => ?_
  rw [ngxLuaSay_text]
  show r.hs.written = r.text ++ s ↔ s = []
  rw [h hend]
  simp

/-- An event that comes back leaves the request complete exactly when it fits. -/
theorem responseEvent_complete_iff {e : ResponseEvent} (h : r.Ordered) (hc : r.Complete)
    (hok : responseEvent r e = .ok r') : r'.Complete ↔ e.Fits r := by
  cases e with
  | say s =>
      obtain rfl := Except.ok.inj hok
      exact say_complete_iff hc s
  | flush tcp =>
      rcases httpLuaFlushOutput_cases hok with ⟨hnil, rfl⟩ | ⟨hfreed, rfl⟩
      · exact iff_of_true hc fun _ => hnil
      · refine iff_of_true ?_ fun hend => absurd (hfreed.symm.trans hend) Bool.false_ne_true
        -- all that was said is queued
        refine (sendStep_complete_iff h.queue (httpSendChain_step _ _) hfreed).2 fun _ i hi hno => ?_
        exact absurd (List.mem_append_right _ hi) hno
  | sent tcp len =>
      obtain rfl := Except.ok.inj hok
      rw [httpSent]
      split
      · exact iff_of_true hc fun hfreed => absurd (hfreed.symm.trans ‹_›) Bool.false_ne_true
      · have hfreed : r.hs.freed = false := Bool.eq_false_iff.2 ‹_›
        have hreport : Response.Ordered { r with hs := r.hs.report len } :=
          ⟨h.ctxOut, h.said, h.links, h.taken, h.written⟩
        rw [sendStep_complete_iff hreport (httpSendChain_step _ _) hfreed]
        exact ⟨fun hall _ => hall, fun hall => hall hfreed⟩

end Ending

/-! ## Runs -/

section Runs

variable {r r' : Response} {tcp : TcpLayer} {hs hs' : HttpState} {es : List ResponseEvent}

theorem SendStep.response_text (h : SendStep tcp hs hs') :
    Response.text { r with hs := hs' } = Response.text { r with hs := hs } :=
  List.flatMap_congr fun i _ => h.text_eq i

theorem responseEvent_text {e : ResponseEvent} (hok : responseEvent r e = .ok r') :
    r'.text = r.text ++ e.text := by
  cases e with
  | say s =>
      obtain rfl := Except.ok.inj hok
      exact ngxLuaSay_text r s
  | flush tcp =>
      refine Eq.trans ?_ (List.append_nil _).symm
      rcases httpLuaFlushOutput_cases hok with ⟨-, rfl⟩ | ⟨-, rfl⟩
      · rfl
      · exact (httpSendChain_step _ _).response_text
  | sent tcp len =>
      obtain rfl := Except.ok.inj hok
      refine Eq.trans ?_ (List.append_nil _).symm
      rw [httpSent]
      split
      · rfl
      · exact (httpSendChain_step _ _).response_text

/-- A closed connection stays closed, and nothing is written to it. -/
theorem responseEvent_closed {e : ResponseEvent} (hok : responseEvent r e = .ok r')
    (hfreed : r.hs.freed = true) : r'.hs.freed = true ∧ r'.hs.written = r.hs.written := by
  cases e with
  | say s =>
      obtain rfl := Except.ok.inj hok
      exact ⟨hfreed, rfl⟩
  | flush tcp =>
      rcases httpLuaFlushOutput_cases hok with ⟨-, rfl⟩ | ⟨hopen, -⟩
      · exact ⟨hfreed, rfl⟩
      · exact absurd (hopen.symm.trans hfreed) Bool.false_ne_true
  | sent tcp len =>
      obtain rfl := Except.ok.inj hok
      rw [httpSent, if_pos hfreed]
      exact ⟨hfreed, rfl⟩

theorem responses_ordered (hok : es.foldlM responseEvent newResponse = .ok r) :
    r.Ordered ∧ r.text = bodyText es := by
  have hstep : ∀ done e r r', Response.Ordered r ∧ r.text = bodyText done → responseEvent r e = .ok r' →
      Response.Ordered r' ∧ r'.text = bodyText (done ++ [e]) := by
    rintro done e r r' ⟨h, htext⟩ hok
    refine ⟨responseEvent_ordered h hok, ?_⟩
    rw [responseEvent_text hok, htext, bodyText, bodyText, List.flatMap_append, List.flatMap_singleton]
  have hrun : r.Ordered ∧ r.text = bodyText ([] ++ es) :=
    Run.keeps_done hstep ⟨newResponse_ordered, rfl⟩ hok
  exact hrun

theorem closed_of_run (hok : es.foldlM responseEvent r = .ok r') (hfreed : r.hs.freed = true) :
    r'.hs.freed = true ∧ r'.hs.written = r.hs.written := by
  have hstep : ∀ (e : ResponseEvent) (r₁ r₂ : Response),
      r₁.hs.freed = true ∧ r₁.hs.written = r.hs.written → responseEvent r₁ e = .ok r₂ →
      r₂.hs.freed = true ∧ r₂.hs.written = r.hs.written := by
    rintro e r₁ r₂ ⟨hfreed, hwritten⟩ hok
    obtain ⟨hfreed', hwritten'⟩ := responseEvent_closed hok hfreed
    exact ⟨hfreed', hwritten'.trans hwritten⟩
  exact Run.keeps hstep ⟨hfreed, rfl⟩ hok

theorem responses_complete_iff (es : List ResponseEvent) :
    ((∃ r, es.foldlM responseEvent newResponse = .ok r) ∧
      ∀ pre, pre <+: es → ∀ r, pre.foldlM responseEvent newResponse = .ok r → r.Complete) ↔
      Run.Allowed responseEvent (fun r e => e.Fits r) newResponse es := by
  have hnew : newResponse.Ordered ∧ newResponse.Complete := ⟨newResponse_ordered, fun _ => rfl⟩
  refine Run.total_good_iff_allowed (fun (r : Response) (h : r.Ordered ∧ r.Complete) => h.2)
    (fun e r h hfits => ?_) (fun e r r' h hok => (responseEvent_complete_iff h.1 h.2 hok).1) hnew
  obtain ⟨r', hok⟩ : ∃ r', responseEvent r e = .ok r' := by
    cases e with
    | say s => exact ⟨_, rfl⟩
    | sent tcp len => exact ⟨_, rfl⟩
    | flush tcp =>
        by_cases hnil : r.ctxOut = []
        · exact ⟨r, by rw [responseEvent, httpLuaFlushOutput, if_neg (not_not.2 hnil)]⟩
        · have hopen : ¬ r.hs.freed = true := fun hfreed => hnil (hfits hfreed)
          rw [responseEvent, httpLuaFlushOutput, if_pos hnil, httpSendContent, if_neg hopen, ok_bind]
          exact ⟨_, rfl⟩
  exact ⟨r', hok, responseEvent_ordered h.1 hok, (responseEvent_complete_iff h.1 h.2 hok).2 hfits⟩

/-- **The body of a response.** A run comes back, and what is written is at every moment a prefix of all
    that is said, and all of it once the request has ended, if and only if every event fits. -/
theorem response_written_iff (es : List ResponseEvent) :
    ((∃ r, es.foldlM responseEvent newResponse = .ok r) ∧
      ∀ pre, pre <+: es → ∀ r, pre.foldlM responseEvent newResponse = .ok r →
        r.hs.written <+: bodyText es ∧ (r.hs.freed = true → r.hs.written = bodyText es)) ↔
      Run.Allowed responseEvent (fun r e => e.Fits r) newResponse es := by
  rw [← responses_complete_iff]
  refine and_congr_right fun ⟨r', hrun⟩ => ?_
  have hbody : ∀ pre, pre <+: es → bodyText pre <+: bodyText es := by
    rintro pre ⟨post, rfl⟩
    rw [bodyText, bodyText, List.flatMap_append]
    exact List.prefix_append _ _
  constructor
  · intro hall pre hpre r hok hfreed
    obtain ⟨h, htext⟩ := responses_ordered hok
    have hwritten := (hall pre hpre r hok).2 hfreed
    -- what was said so far lies between what is written and all that is said
    refine h.written_prefix.eq_of_length_le ?_
    rw [htext, hwritten]
    exact (hbody pre hpre).length_le
  · intro hall pre hpre r hok
    obtain ⟨h, htext⟩ := responses_ordered hok
    refine ⟨h.written_prefix.trans (htext ▸ hbody pre hpre), fun hfreed => ?_⟩
    obtain ⟨post, rfl⟩ := hpre
    obtain ⟨r₁, hr₁, hpost⟩ := Run.append_eq_ok.1 hrun
    obtain rfl := Except.ok.inj (hok.symm.trans hr₁)
    obtain ⟨hfreed', hsame⟩ := closed_of_run hpost hfreed
    rw [← (responses_ordered hrun).2, ← hsame]
    exact hall _ List.prefix_rfl r' hrun hfreed'

/-- The first part of a body is flushed and taken at once, and its end ends the request. -/
theorem response_cut : ∃ r, [.say [0x61], .flush tcpTakesAll].foldlM responseEvent newResponse = .ok r ∧
    r.hs.freed = true ∧
    r.hs.written ≠ bodyText [.say [0x61], .flush tcpTakesAll, .say [0x62], .flush tcpTakesAll] := by
  obtain ⟨hs, r, hout, hrest, hopen, hok, hr⟩ : ∃ hs r, hs.out = [0] ∧ (hs.bufs 0).rest = [0x61] ∧
      hs.freed = false ∧
      [.say [0x61], .flush tcpTakesAll].foldlM responseEvent newResponse = .ok r ∧
      r.hs = httpSendChain tcpTakesAll hs :=
    ⟨{ (ngxLuaSay newResponse [0x61]).hs with out := [0] }, _, rfl, rfl, rfl, rfl, rfl⟩
  have hfin : hs.Finishes tcpTakesAll := by
    refine .inr ⟨0, hout, .inr ?_⟩
    rw [hrest]
    exact ⟨by decide, by decide, rfl⟩
  obtain ⟨h, htext⟩ := responses_ordered hok
  refine ⟨r, hok, hr ▸ ((httpSendChain_step _ _).freed_iff hopen).2 hfin, fun hwritten => ?_⟩
  -- the second part is not even said
  have hle := h.written_prefix.length_le
  rw [htext, hwritten] at hle
  exact absurd hle (by decide)

end Runs

end Yaos
