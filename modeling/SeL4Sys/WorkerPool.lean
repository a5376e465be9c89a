import SeL4Sys.Lib.Fair
import Mathlib.Logic.Function.Basic
import Mathlib.Logic.Relation

/-!
# The worker pool

`sys_worker.c`: one thread at a time is in `sysworker_dispatch_thread`, eight threads are in
`sysworker_loop`. They share the array `workers`, and every read or write of a field of it is a step
of its own. `seL4_Signal` on the endpoint of a worker is a rendezvous: it is done when the worker is in
`seL4_Wait`.

Requests are numbered in the order in which `sysworker_dispatch_thread` is called. The number of the
request that a signal was for, and the three lists of a `WorkerPool`, are not part of the program: they say
what happened.
-/

namespace SeL4Sys

/-- `MAX_WORKER_NUM` -/
abbrev maxWorkerNum : ℕ := 8

abbrev WorkerId := Fin maxWorkerNum

/-- Where a worker is in `sysworker_loop`. -/
inductive WorkerPoint (F D : Type*)
  /-- in `seL4_Wait` -/
  | wait
  /-- before `assert(sysworker->fn != NULL)`, with the signal for request `k` -/
  | assertFn (k : ℕ)
  /-- before `sysworker->fn` is read for the call -/
  | loadFn (k : ℕ)
  /-- before `sysworker->data` is read for the call -/
  | loadData (k : ℕ) (fn : F)
  /-- in the call -/
  | call (k : ℕ) (fn : F) (data : D)
  /-- before `sysworker->busy = 0` -/
  | clearBusy
  /-- on the way back to `seL4_Wait` -/
  | back

/-- `SysWorker`, with the point at which its thread is; `none` is the null pointer. -/
structure SysWorker (F D : Type*) where
  busy : Bool
  fn : Option F
  data : D
  point : WorkerPoint F D

/-- Where a call of `sysworker_dispatch_thread` is. -/
inductive DispatchPoint
  /-- in `get_idle_worker`, with the loop at `i` -/
  | scan (i : ℕ)
  | setBusy (w : WorkerId)
  | setFn (w : WorkerId)
  | setData (w : WorkerId)
  | signal (w : WorkerId)

/-- A call of `sysworker_dispatch_thread`: its arguments and where it is. -/
structure Dispatch (F D : Type*) where
  fn : F
  data : D
  point : DispatchPoint

/-- A call that a worker made, and the number of the request whose signal it had received. -/
structure WorkerCall (F D : Type*) where
  worker : WorkerId
  request : ℕ
  fn : F
  data : D

structure WorkerPool (F D : Type*) where
  workers : WorkerId → SysWorker F D
  dispatcher : Option (Dispatch F D)
  /-- the arguments of the calls of `sysworker_dispatch_thread` -/
  dispatched : List (F × D)
  /-- the workers that were signalled -/
  signals : List WorkerId
  /-- the calls that workers made -/
  calls : List (WorkerCall F D)

/-- The threads; `client` stands for whatever makes the dispatcher call `sysworker_dispatch_thread`. -/
inductive PoolThread
  | client
  | dispatcher
  | worker (w : WorkerId)
deriving DecidableEq

variable {F D : Type*}

/-- `sysworkers_init` -/
def sysworkersInit (null : D) : WorkerPool F D where
  workers := fun _ => ⟨false, none, null, .wait⟩
  dispatcher := none
  dispatched := []
  signals := []
  calls := []

namespace WorkerPool

def setWorker (s : WorkerPool F D) (w : WorkerId) (x : SysWorker F D) : WorkerPool F D :=
  { s with workers := Function.update s.workers w x }

/-- The worker's thread goes on to another point. -/
def moveWorker (s : WorkerPool F D) (w : WorkerId) (point : WorkerPoint F D) : WorkerPool F D :=
  s.setWorker w { s.workers w with point := point }

/-- The dispatcher goes on to another point of its call. -/
def moveDispatcher (s : WorkerPool F D) (d : Dispatch F D) (point : DispatchPoint) : WorkerPool F D :=
  { s with dispatcher := some ⟨d.fn, d.data, point⟩ }

section
variable (s : WorkerPool F D) (w v : WorkerId) (x : SysWorker F D) (point : WorkerPoint F D)
  (d : Dispatch F D) (next : DispatchPoint)

@[simp, grind =] theorem setWorker_workers :
    (s.setWorker w x).workers v = if v = w then x else s.workers v := Function.update_apply ..

@[simp, grind =] theorem setWorker_dispatcher : (s.setWorker w x).dispatcher = s.dispatcher := rfl

@[simp, grind =] theorem setWorker_dispatched : (s.setWorker w x).dispatched = s.dispatched := rfl

@[simp, grind =] theorem setWorker_signals : (s.setWorker w x).signals = s.signals := rfl

@[simp, grind =] theorem moveWorker_workers : (s.moveWorker w point).workers v
    = if v = w then { s.workers w with point := point } else s.workers v := setWorker_workers ..

@[simp, grind =] theorem moveWorker_dispatcher : (s.moveWorker w point).dispatcher = s.dispatcher := rfl

@[simp, grind =] theorem moveWorker_dispatched : (s.moveWorker w point).dispatched = s.dispatched := rfl

@[simp, grind =] theorem moveWorker_signals : (s.moveWorker w point).signals = s.signals := rfl

@[simp, grind =] theorem moveDispatcher_workers : (s.moveDispatcher d next).workers = s.workers := rfl

@[simp, grind =] theorem moveDispatcher_dispatcher :
    (s.moveDispatcher d next).dispatcher = some ⟨d.fn, d.data, next⟩ := rfl

@[simp, grind =] theorem moveDispatcher_dispatched :
    (s.moveDispatcher d next).dispatched = s.dispatched := rfl

@[simp, grind =] theorem moveDispatcher_signals : (s.moveDispatcher d next).signals = s.signals := rfl

end

end WorkerPool

/-- One step of a thread. -/
inductive PoolStep : PoolThread → WorkerPool F D → WorkerPool F D → Prop
  | dispatch {s : WorkerPool F D} (fn : F) (data : D) (h : s.dispatcher = none) :
      PoolStep .client s { s with
        dispatcher := some ⟨fn, data, .scan 0⟩
        dispatched := s.dispatched ++ [(fn, data)] }
  | skip {s : WorkerPool F D} {d : Dispatch F D} {w : WorkerId} (h : s.dispatcher = some d)
      (hp : d.point = .scan w) (hbusy : (s.workers w).busy = true) :
      PoolStep .dispatcher s (s.moveDispatcher d (.scan (w + 1)))
  | found {s : WorkerPool F D} {d : Dispatch F D} {w : WorkerId} (h : s.dispatcher = some d)
      (hp : d.point = .scan w) (hidle : (s.workers w).busy = false) :
      PoolStep .dispatcher s (s.moveDispatcher d (.setBusy w))
  /-- `get_idle_worker` returns the null pointer and is called again -/
  | again {s : WorkerPool F D} {d : Dispatch F D} {i : ℕ} (h : s.dispatcher = some d)
      (hp : d.point = .scan i) (hi : maxWorkerNum ≤ i) :
      PoolStep .dispatcher s (s.moveDispatcher d (.scan 0))
  | setBusy {s : WorkerPool F D} {d : Dispatch F D} {w : WorkerId} (h : s.dispatcher = some d)
      (hp : d.point = .setBusy w) :
      PoolStep .dispatcher s ((s.moveDispatcher d (.setFn w)).setWorker w
        { s.workers w with busy := true })
  | setFn {s : WorkerPool F D} {d : Dispatch F D} {w : WorkerId} (h : s.dispatcher = some d)
      (hp : d.point = .setFn w) :
      PoolStep .dispatcher s ((s.moveDispatcher d (.setData w)).setWorker w
        { s.workers w with fn := some d.fn })
  | setData {s : WorkerPool F D} {d : Dispatch F D} {w : WorkerId} (h : s.dispatcher = some d)
      (hp : d.point = .setData w) :
      PoolStep .dispatcher s ((s.moveDispatcher d (.signal w)).setWorker w
        { s.workers w with data := d.data })
  | signal {s : WorkerPool F D} {d : Dispatch F D} {w : WorkerId} (h : s.dispatcher = some d)
      (hp : d.point = .signal w) (hwait : (s.workers w).point = .wait) :
      PoolStep .dispatcher s { s.moveWorker w (.assertFn s.signals.length) with
        dispatcher := none
        signals := s.signals ++ [w] }
  | assertFn {s : WorkerPool F D} {w : WorkerId} {k : ℕ} (hp : (s.workers w).point = .assertFn k)
      (hfn : (s.workers w).fn ≠ none) :
      PoolStep (.worker w) s (s.moveWorker w (.loadFn k))
  | loadFn {s : WorkerPool F D} {w : WorkerId} {k : ℕ} {fn : F} (hp : (s.workers w).point = .loadFn k)
      (hfn : (s.workers w).fn = some fn) :
      PoolStep (.worker w) s (s.moveWorker w (.loadData k fn))
  | call {s : WorkerPool F D} {w : WorkerId} {k : ℕ} {fn : F} (hp : (s.workers w).point = .loadData k fn) :
      PoolStep (.worker w) s { s.moveWorker w (.call k fn (s.workers w).data) with
        calls := s.calls ++ [⟨w, k, fn, (s.workers w).data⟩] }
  | ret {s : WorkerPool F D} {w : WorkerId} {k : ℕ} {fn : F} {data : D}
      (hp : (s.workers w).point = .call k fn data) :
      PoolStep (.worker w) s (s.moveWorker w .clearBusy)
  | clearBusy {s : WorkerPool F D} {w : WorkerId} (hp : (s.workers w).point = .clearBusy) :
      PoolStep (.worker w) s (s.setWorker w { s.workers w with busy := false, point := .back })
  | back {s : WorkerPool F D} {w : WorkerId} (hp : (s.workers w).point = .back) :
      PoolStep (.worker w) s (s.moveWorker w .wait)

/-! ## The invariant -/

namespace WorkerPoint

/-- The thread is in `seL4_Wait` or on the way there. -/
def Resting : WorkerPoint F D → Prop
  | wait => True
  | back => True
  | _ => False

/-- The request whose signal was received and whose call has not started. -/
def pending : WorkerPoint F D → Option ℕ
  | assertFn k => some k
  | loadFn k => some k
  | loadData k _ => some k
  | _ => none

/-- The request whose signal was received and whose call has not ended. -/
def serving : WorkerPoint F D → Option ℕ
  | call k _ _ => some k
  | p => p.pending

/-- What was read for the call is what the request `r` has. -/
def Loaded (r : F × D) : WorkerPoint F D → Prop
  | loadData _ fn => fn = r.1
  | call _ fn data => fn = r.1 ∧ data = r.2
  | _ => True

end WorkerPoint

/-- The worker that the dispatcher has found. -/
def DispatchPoint.target : DispatchPoint → Option WorkerId
  | scan _ => none
  | setBusy w => some w
  | setFn w => some w
  | setData w => some w
  | signal w => some w

/-- What the dispatcher has stored in the worker it has found. -/
def Dispatch.Stored (d : Dispatch F D) (x : SysWorker F D) : Prop :=
  match d.point with
  | .scan _ => True
  | .setBusy _ => True
  | .setFn _ => x.busy = true
  | .setData _ => x.busy = true ∧ x.fn = some d.fn
  | .signal _ => x.busy = true ∧ x.fn = some d.fn ∧ x.data = d.data

namespace WorkerPool

def target (s : WorkerPool F D) : Option WorkerId := s.dispatcher.bind fun d => d.point.target

/-- Worker `w` received the signal for request `k`, and has the arguments of that request. -/
structure Serves (s : WorkerPool F D) (w : WorkerId) (k : ℕ) (r : F × D) : Prop where
  dispatched : s.dispatched[k]? = some r
  signalled : s.signals[k]? = some w
  fn : (s.workers w).fn = some r.1
  data : (s.workers w).data = r.2
  loaded : (s.workers w).point.Loaded r

/-- The flag of a worker, its slot, the signal and the point of its thread, as they go together. -/
structure Inv (s : WorkerPool F D) : Prop where
  found : ∀ w, s.target = some w → (s.workers w).point.Resting
  stored : ∀ d w, s.dispatcher = some d → d.point.target = some w → d.Stored (s.workers w)
  busy : ∀ w, s.target ≠ some w → ((s.workers w).busy = true ↔ ¬ (s.workers w).point.Resting)
  serves : ∀ w k, (s.workers w).point.serving = some k → ∃ r, s.Serves w k r
  -- every request but the one that is being dispatched has its signal
  idle : s.dispatcher = none → s.dispatched.length = s.signals.length
  current : ∀ d, s.dispatcher = some d → s.dispatched.length = s.signals.length + 1
    ∧ s.dispatched[s.signals.length]? = some (d.fn, d.data)

/-- The calls made, and the requests still to be called. -/
structure Calls (s : WorkerPool F D) : Prop where
  once : (s.calls.map WorkerCall.request).Nodup
  right : ∀ c ∈ s.calls, s.dispatched[c.request]? = some (c.fn, c.data)
    ∧ s.signals[c.request]? = some c.worker
  fresh : ∀ w k, (s.workers w).point.pending = some k → ∀ c ∈ s.calls, c.request ≠ k
  kept : ∀ k w, s.signals[k]? = some w →
    (s.workers w).point.pending = some k ∨ ∃ c ∈ s.calls, c.request = k

end WorkerPool

attribute [local grind =] WorkerPool.target WorkerPoint.Resting WorkerPoint.serving
  WorkerPoint.pending WorkerPoint.Loaded DispatchPoint.target Dispatch.Stored Option.bind

@[grind →] theorem WorkerPoint.Resting.serving_eq {p : WorkerPoint F D} (h : p.Resting) :
    p.serving = none := by
  cases p with
  | wait => rfl
  | back => rfl
  | _ => exact h.elim

theorem WorkerPoint.serving_of_pending {p : WorkerPoint F D} {k : ℕ} (h : p.pending = some k) :
    p.serving = some k := by
  cases p with
  | call => cases h
  | _ => exact h

namespace PoolStep
variable {t : PoolThread} {s s' : WorkerPool F D}

/-! ## What a step does to the lists -/

theorem dispatched_getElem? (h : PoolStep t s s') {k : ℕ} {r : F × D}
    (hk : s.dispatched[k]? = some r) : s'.dispatched[k]? = some r := by
  cases h <;> grind

theorem signals_getElem? (h : PoolStep t s s') {k : ℕ} {w : WorkerId}
    (hk : s.signals[k]? = some w) : s'.signals[k]? = some w := by
  cases h <;> grind

/-- A signal is for the request that comes next. -/
theorem signals_cases (h : PoolStep t s s') : s'.signals = s.signals
    ∨ ∃ w, s'.signals = s.signals ++ [w] ∧ (s'.workers w).point.pending = some s.signals.length := by
  cases h <;> grind

theorem pending_cases (h : PoolStep t s s') {w : WorkerId} {k : ℕ}
    (hp : (s'.workers w).point.pending = some k) :
    (s.workers w).point.pending = some k ∨ k = s.signals.length := by
  cases h <;> grind

/-- Either no call starts and what is pending stays so, or one worker makes the call it has loaded. -/
theorem calls_cases (h : PoolStep t s s') :
    s'.calls = s.calls ∧ (∀ w k, (s.workers w).point.pending = some k →
        (s'.workers w).point.pending = some k)
      ∨ ∃ w k fn, (s.workers w).point = .loadData k fn
        ∧ s'.calls = s.calls ++ [⟨w, k, fn, (s.workers w).data⟩]
        ∧ (s'.workers w).point.pending = none ∧ s'.signals = s.signals
        ∧ ∀ v, v ≠ w → s'.workers v = s.workers v := by
  cases h with
  | @call _ w k fn hp =>
    right
    refine ⟨w, k, fn, hp, rfl, ?_, rfl, ?_⟩ <;> grind
  | _ =>
    left
    refine ⟨rfl, ?_⟩
    grind

/-! ## The invariant is kept -/

/-- The dispatcher is at no slot whose worker serves a request, so that slot is left alone. -/
theorem slot_kept (h : PoolStep t s s') (hi : s.Inv) {w : WorkerId} {k : ℕ}
    (hs : (s.workers w).point.serving = some k) :
    (s'.workers w).fn = (s.workers w).fn ∧ (s'.workers w).data = (s.workers w).data := by
  have hfound := hi.found
  cases h <;> grind

theorem serves (h : PoolStep t s s') (hi : s.Inv) (w : WorkerId) (k : ℕ)
    (hs : (s'.workers w).point.serving = some k) : ∃ r, s'.Serves w k r := by
  have hkeep : (s.workers w).point.serving = some k →
      (∀ r, s.Serves w k r → (s'.workers w).point.Loaded r) → ∃ r, s'.Serves w k r := by
    intro hold hloaded
    have ⟨hfn, hdata⟩ := h.slot_kept hi hold
    have ⟨r, hr⟩ := hi.serves w k hold
    exact ⟨r, h.dispatched_getElem? hr.dispatched, h.signals_getElem? hr.signalled,
      hfn.trans hr.fn, hdata.trans hr.data, hloaded r hr⟩
  have hslot : ∀ r, s.Serves w k r → (s.workers w).fn = some r.1 ∧ (s.workers w).data = r.2
      ∧ (s.workers w).point.Loaded r := fun r hr => ⟨hr.fn, hr.data, hr.loaded⟩
  cases h with
  | @signal _ d v hd hp hwait =>
    have ⟨hlen, hcur⟩ := hi.current d hd
    have hstored := hi.stored d v hd (by rw [hp]; rfl)
    by_cases hw : w = v
    · -- the worker that is signalled gets the next number, and its slot has been filled for it
      subst hw
      have hk : k = s.signals.length := by grind
      subst hk
      refine ⟨(d.fn, d.data), hcur, by simp, ?_, ?_, ?_⟩ <;> grind
    · apply hkeep <;> grind
  | _ => apply hkeep <;> grind

theorem inv (h : PoolStep t s s') (hi : s.Inv) : s'.Inv where
  found := fun w hw => by
    -- a worker is found while its flag is clear, and stays resting until it is signalled
    have hfound := hi.found
    have hbusy := hi.busy
    cases h <;> grind
  stored := fun d w hd hw => by
    have hfound := hi.found
    have hstored := hi.stored
    cases h <;> grind
  busy := fun w hw => by
    -- the flag is set before the signal and cleared after the call
    have hfound := hi.found
    have hbusy := hi.busy
    have hstored := hi.stored
    cases h <;> grind
  serves := h.serves hi
  idle := fun hd => by
    have hcurrent := hi.current
    have hidle := hi.idle
    cases h <;> grind
  current := fun d hd => by
    have hcurrent := hi.current
    have hidle := hi.idle
    cases h <;> grind

theorem calls (h : PoolStep t s s') (hi : s.Inv) (hc : s.Calls) : s'.Calls := by
  have hlt : ∀ c ∈ s.calls, c.request < s.signals.length := fun c hmem =>
    (List.getElem?_eq_some_iff.mp (hc.right c hmem).2).1
  have hold : ∀ c ∈ s.calls, s'.dispatched[c.request]? = some (c.fn, c.data)
      ∧ s'.signals[c.request]? = some c.worker := fun c hmem =>
    ⟨h.dispatched_getElem? (hc.right c hmem).1, h.signals_getElem? (hc.right c hmem).2⟩
  rcases h.calls_cases with ⟨hsame, hpending⟩ | ⟨w, k, fn, hp, hcalls, hnone, hsignals, hothers⟩
  · refine ⟨by rw [hsame]; exact hc.once, by rw [hsame]; exact hold, ?_, ?_⟩
    · intro v l hv c hmem
      rw [hsame] at hmem
      rcases h.pending_cases hv with hv' | hnew
      · exact hc.fresh v l hv' c hmem
      · have := hlt c hmem
        omega
    · intro l v hl
      rw [hsame]
      rcases h.signals_cases with hsig | ⟨u, hsig, hu⟩
      · rw [hsig] at hl
        exact (hc.kept l v hl).imp_left (hpending v l)
      · rw [hsig] at hl
        by_cases hl' : l = s.signals.length
        · rw [hl', List.getElem?_concat_length] at hl
          rw [hl', ← Option.some.inj hl]
          exact Or.inl hu
        · have hlen := (List.getElem?_eq_some_iff.mp hl).1
          rw [List.length_append, List.length_singleton] at hlen
          rw [List.getElem?_append_left (by omega)] at hl
          exact (hc.kept l v hl).imp_left (hpending v l)
  · have hk : (s.workers w).point.pending = some k := by rw [hp]; rfl
    have ⟨r, hr⟩ := hi.serves w k (WorkerPoint.serving_of_pending hk)
    refine ⟨?_, ?_, ?_, ?_⟩ <;> rw [hcalls]
    · rw [List.map_append, List.nodup_append]
      refine ⟨hc.once, by simp, ?_⟩
      intro l hl l' hl'
      rw [List.map_singleton, List.mem_singleton] at hl'
      have ⟨c, hmem, hreq⟩ := List.mem_map.mp hl
      rw [hl', ← hreq]
      exact hc.fresh w k hk c hmem
    · intro c hmem
      rcases List.mem_append.mp hmem with hmem | hmem
      · exact hold c hmem
      · rw [List.mem_singleton.mp hmem]
        have hloaded := hr.loaded
        rw [hp] at hloaded
        have hpair : (fn, (s.workers w).data) = r := Prod.ext hloaded hr.data
        exact ⟨hpair ▸ h.dispatched_getElem? hr.dispatched, h.signals_getElem? hr.signalled⟩
    · intro v l hv c hmem
      have hne : v ≠ w := by
        rintro rfl
        rw [hnone] at hv
        cases hv
      rw [hothers v hne] at hv
      rcases List.mem_append.mp hmem with hmem | hmem
      · exact hc.fresh v l hv c hmem
      · -- the worker that makes the call is the only one that was signalled for it
        rw [List.mem_singleton.mp hmem]
        rintro rfl
        have ⟨r', hr'⟩ := hi.serves v k (WorkerPoint.serving_of_pending hv)
        have hsame := hr'.signalled.symm.trans hr.signalled
        exact hne (Option.some.inj hsame)
    · intro l v hl
      rw [hsignals] at hl
      rcases hc.kept l v hl with hv | ⟨c, hmem, hreq⟩
      · by_cases hvw : v = w
        · rw [hvw, hk] at hv
          exact Or.inr ⟨_, List.mem_append_right _ (List.mem_singleton_self _), Option.some.inj hv⟩
        · rw [hothers v hvw]
          exact Or.inl hv
      · exact Or.inr ⟨c, List.mem_append_left _ hmem, hreq⟩

end PoolStep

end SeL4Sys
