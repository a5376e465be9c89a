import SeL4Sys.WorkerPool

/-!
# Runs of the worker pool

Safety is the invariant of `WorkerPool`, in every interleaving. That a request is called at all needs
threads that are scheduled and calls that return: in a fair run the dispatcher finds a worker, if only
because worker 0 gets idle and stays so until it is found, and the worker that is signalled makes the
call.
-/

namespace SeL4Sys

open Fair

variable {F D : Type*}

namespace WorkerPool

/-- What holds in every reachable state. -/
structure Ok (s : WorkerPool F D) : Prop where
  inv : s.Inv
  calls : s.Calls

theorem sysworkersInit_ok (null : D) : (sysworkersInit null : WorkerPool F D).Ok where
  inv := by
    constructor
    · intro w hw
      cases hw
    · intro d w hd
      cases hd
    · intro w _
      simp [sysworkersInit, WorkerPoint.Resting]
    · intro w k hk
      cases hk
    · intro _
      rfl
    · intro d hd
      cases hd
  calls := by
    constructor
    · exact List.nodup_nil
    · intro c hc
      cases hc
    · intro w k hk
      cases hk
    · intro k w hk
      cases hk

theorem Ok.step {t : PoolThread} {s s' : WorkerPool F D} (h : s.Ok) (hstep : PoolStep t s s') : s'.Ok :=
  ⟨hstep.inv h.inv, hstep.calls h.inv h.calls⟩

theorem Ok.run {s s' : WorkerPool F D} (h : s.Ok)
    (hrun : Relation.ReflTransGen (fun s s' => ∃ t, PoolStep t s s') s s') : s'.Ok := by
  induction hrun with
  | refl => exact h
  | tail _ hstep ih =>
    have ⟨_, hstep⟩ := hstep
    exact ih.step hstep

/-- The call for request `k` was made. -/
def Called (s : WorkerPool F D) (k : ℕ) : Prop := ∃ c ∈ s.calls, c.request = k

end WorkerPool

/-! ## From the signal to the call -/

/-- The steps of a worker from its signal until its flag is clear again. -/
def WorkerPoint.left : WorkerPoint F D → ℕ
  | assertFn _ => 5
  | loadFn _ => 4
  | loadData _ _ => 3
  | call _ _ _ => 2
  | clearBusy => 1
  | wait => 0
  | back => 0

/-- A worker that is not resting can go on. -/
theorem WorkerPool.Inv.worker_enabled {s : WorkerPool F D} (h : s.Inv) {w : WorkerId}
    (hw : ¬ (s.workers w).point.Resting) : ∃ s', PoolStep (.worker w) s s' := by
  cases hp : (s.workers w).point with
  | wait => simp [hp, WorkerPoint.Resting] at hw
  | back => simp [hp, WorkerPoint.Resting] at hw
  | assertFn k =>
    have ⟨r, hr⟩ := h.serves w k (by rw [hp]; rfl)
    exact ⟨_, .assertFn hp (by rw [hr.fn]; simp)⟩
  | loadFn k =>
    have ⟨r, hr⟩ := h.serves w k (by rw [hp]; rfl)
    exact ⟨_, .loadFn hp hr.fn⟩
  | loadData k fn => exact ⟨_, .call hp⟩
  | call k fn data => exact ⟨_, .ret hp⟩
  | clearBusy => exact ⟨_, .clearBusy hp⟩

/-- Other threads leave the point of a worker alone that is not waiting. -/
theorem PoolStep.point_kept {t : PoolThread} {s s' : WorkerPool F D} (h : PoolStep t s s')
    {w : WorkerId} (ht : t ≠ .worker w) (hw : (s.workers w).point ≠ .wait) :
    (s'.workers w).point = (s.workers w).point := by
  cases h <;> grind

/-- The steps of a worker itself bring it nearer to the end. -/
theorem PoolStep.left_lt {s s' : WorkerPool F D} {w : WorkerId} (h : PoolStep (.worker w) s s')
    (hw : ¬ (s.workers w).point.Resting) :
    (s'.workers w).point.left < (s.workers w).point.left := by
  cases h with
  | assertFn hp _ => simp [hp, WorkerPoint.left]
  | loadFn hp _ => simp [hp, WorkerPoint.left]
  | call hp => simp [hp, WorkerPoint.left]
  | ret hp => simp [hp, WorkerPoint.left]
  | clearBusy hp => simp [hp, WorkerPoint.left]
  | back hp => simp [hp, WorkerPoint.Resting] at hw

/-- A pending request stays so until its call is made. -/
theorem PoolStep.called_or_pending {t : PoolThread} {s s' : WorkerPool F D} (h : PoolStep t s s')
    {w : WorkerId} {k : ℕ} (hw : (s.workers w).point.pending = some k) :
    s'.Called k ∨ (s'.workers w).point.pending = some k := by
  rcases h.calls_cases with ⟨_, hpending⟩ | ⟨v, l, fn, hp, hcalls, _, _, hothers⟩
  · exact Or.inr (hpending w k hw)
  · by_cases hwv : w = v
    · rw [hwv, hp] at hw
      refine Or.inl ⟨⟨v, l, fn, (s.workers v).data⟩, ?_, Option.some.inj hw⟩
      rw [hcalls]
      exact List.mem_append_right _ (List.mem_singleton_self _)
    · rw [hothers w hwv]
      exact Or.inr hw

theorem WorkerPoint.not_resting_of_pending {p : WorkerPoint F D} {k : ℕ} (h : p.pending = some k) :
    ¬ p.Resting := by
  intro hrest
  have := hrest.serving_eq
  rw [WorkerPoint.serving_of_pending h] at this
  cases this

/-- The threads that are scheduled fairly: the dispatcher and the workers. -/
def poolThreads : Set PoolThread := {t | t ≠ .client}

section
variable {run : ℕ → WorkerPool F D}

theorem leadsTo_called (hrun : FairRun PoolStep poolThreads run) (w : WorkerId) (k : ℕ) :
    LeadsTo run (fun s => s.Ok ∧ (s.workers w).point.pending = some k) (fun s => s.Called k) := by
  apply hrun.leadsTo_of_rank (fun s => (s.workers w).point.left) (fun _ => .worker w)
  · intro s _
    exact fun h => nomatch h
  · intro s hs
    exact hs.1.inv.worker_enabled (WorkerPoint.not_resting_of_pending hs.2)
  · intro t s s' ⟨hok, hw⟩ hstep
    have hrest := WorkerPoint.not_resting_of_pending hw
    rcases hstep.called_or_pending hw with hcalled | hw'
    · exact Or.inl hcalled
    · refine Or.inr ⟨⟨hok.step hstep, hw'⟩, ?_⟩
      by_cases ht : t = .worker w
      · subst ht
        exact Or.inl (hstep.left_lt hrest)
      · have hpoint := hstep.point_kept ht (fun hwait => hrest (by rw [hwait]; trivial))
        exact Or.inr ⟨by rw [hpoint], rfl, ht⟩

/-! ## From the dispatch to the signal -/

/-- The thread that brings the call of `sysworker_dispatch_thread` nearer to its signal. -/
def WorkerPool.helper (s : WorkerPool F D) : PoolThread :=
  match s.dispatcher with
  | some ⟨_, _, .scan _⟩ => if (s.workers 0).busy then .worker 0 else .dispatcher
  | some ⟨_, _, .signal w⟩ =>
    match (s.workers w).point with
    | .back => .worker w
    | _ => .dispatcher
  | _ => .dispatcher

/-- How far the call is from its signal. While worker 0 is busy, its steps count; once it is idle, the
loop of `get_idle_worker` is on its way to it. -/
def WorkerPool.distance (s : WorkerPool F D) : ℕ :=
  match s.dispatcher with
  | none => 0
  | some ⟨_, _, .scan i⟩ =>
    if (s.workers 0).busy then 20 + (s.workers 0).point.left
    else if i = 0 then 9 else 10 + (maxWorkerNum - i)
  | some ⟨_, _, .setBusy _⟩ => 8
  | some ⟨_, _, .setFn _⟩ => 7
  | some ⟨_, _, .setData _⟩ => 6
  | some ⟨_, _, .signal w⟩ =>
    match (s.workers w).point with
    | .back => 5
    | _ => 4

section distance
variable {s s' : WorkerPool F D} {fn : F} {data : D} {w : WorkerId}

theorem WorkerPool.helper_scan {i : ℕ} (h : s.dispatcher = some ⟨fn, data, .scan i⟩) :
    s.helper = if (s.workers 0).busy then .worker 0 else .dispatcher := by
  rw [helper, h]

theorem WorkerPool.helper_signal (h : s.dispatcher = some ⟨fn, data, .signal w⟩)
    (hw : (s.workers w).point.Resting) :
    (s.workers w).point = .back ∧ s.helper = .worker w ∧ s.distance = 5
      ∨ (s.workers w).point = .wait ∧ s.helper = .dispatcher ∧ s.distance = 4 := by
  rw [helper, distance, h]
  cases hp : (s.workers w).point with
  | back => simp [hp]
  | wait => simp [hp]
  | _ => simp [hp, WorkerPoint.Resting] at hw

theorem WorkerPool.distance_scan {i : ℕ} (h : s.dispatcher = some ⟨fn, data, .scan i⟩) :
    s.distance = if (s.workers 0).busy then 20 + (s.workers 0).point.left
      else if i = 0 then 9 else 10 + (maxWorkerNum - i) := by
  rw [distance, h]

theorem WorkerPool.Inv.helper_enabled (h : s.Inv) (hd : s.dispatcher ≠ none) :
    ∃ s', PoolStep s.helper s s' := by
  have ⟨⟨fn, data, point⟩, hd⟩ := Option.ne_none_iff_exists'.mp hd
  cases point with
  | scan i =>
    rw [helper_scan hd]
    have htarget : s.target ≠ some 0 := by simp [target, hd, DispatchPoint.target]
    split_ifs with hbusy
    · exact h.worker_enabled ((h.busy 0 htarget).mp hbusy)
    · by_cases hi : i < maxWorkerNum
      · cases hb : (s.workers ⟨i, hi⟩).busy with
        | true => exact ⟨_, .skip (w := ⟨i, hi⟩) hd rfl hb⟩
        | false => exact ⟨_, .found (w := ⟨i, hi⟩) hd rfl hb⟩
      · exact ⟨_, .again hd rfl (by omega)⟩
  | setBusy w => exact ⟨_, by rw [helper, hd]; exact .setBusy hd rfl⟩
  | setFn w => exact ⟨_, by rw [helper, hd]; exact .setFn hd rfl⟩
  | setData w => exact ⟨_, by rw [helper, hd]; exact .setData hd rfl⟩
  | signal w =>
    have hrest := h.found w (by simp [target, hd, DispatchPoint.target])
    rcases helper_signal hd hrest with ⟨hback, hhelp, _⟩ | ⟨hwait, hhelp, _⟩
    · rw [hhelp]
      exact ⟨_, .back hback⟩
    · rw [hhelp]
      exact ⟨_, .signal hd rfl hwait⟩

/-- The steps of a worker are about that worker. -/
theorem PoolStep.worker_frame (h : PoolStep (.worker w) s s') :
    s'.dispatcher = s.dispatcher ∧ s'.signals = s.signals
      ∧ (∀ v, v ≠ w → s'.workers v = s.workers v)
      ∧ ((s.workers w).busy = false → (s'.workers w).busy = false) := by
  cases h <;> grind

/-- A resting worker has one step, to its wait. -/
theorem PoolStep.of_resting (h : PoolStep (.worker w) s s') (hw : (s.workers w).point.Resting) :
    (s.workers w).point = .back ∧ (s'.workers w).point = .wait := by
  cases h with
  | back hp => simp [hp]
  | assertFn hp _ => simp [hp, WorkerPoint.Resting] at hw
  | loadFn hp _ => simp [hp, WorkerPoint.Resting] at hw
  | call hp => simp [hp, WorkerPoint.Resting] at hw
  | ret hp => simp [hp, WorkerPoint.Resting] at hw
  | clearBusy hp => simp [hp, WorkerPoint.Resting] at hw

theorem PoolStep.worker_distance (h : PoolStep (.worker w) s s') (hi : s.Inv)
    (hd : s.dispatcher ≠ none) :
    s'.distance < s.distance
      ∨ s'.distance = s.distance ∧ s'.helper = s.helper ∧ .worker w ≠ s.helper := by
  obtain ⟨hdisp, _, hothers, hidle⟩ := h.worker_frame
  obtain ⟨⟨fn, data, point⟩, hd⟩ := Option.ne_none_iff_exists'.mp hd
  have hd' := hdisp.trans hd
  cases point with
  | scan i =>
    -- while the dispatcher looks for a worker, the one that it waits for is worker 0
    have htarget : s.target ≠ some 0 := by simp [WorkerPool.target, hd, DispatchPoint.target]
    rw [WorkerPool.distance_scan hd, WorkerPool.distance_scan hd', WorkerPool.helper_scan hd,
      WorkerPool.helper_scan hd']
    by_cases hw : (0 : WorkerId) = w
    · subst hw
      cases hb : (s.workers 0).busy with
      | false => simp [hidle hb]
      | true =>
        left
        have hlt := h.left_lt ((hi.busy 0 htarget).mp hb)
        simp only [if_true, maxWorkerNum]
        split_ifs <;> omega
    · rw [hothers 0 hw]
      cases hb : (s.workers 0).busy with
      | false => simp
      | true => simp [Ne.symm hw]
  | setBusy v => simp [WorkerPool.distance, WorkerPool.helper, hd, hd']
  | setFn v => simp [WorkerPool.distance, WorkerPool.helper, hd, hd']
  | setData v => simp [WorkerPool.distance, WorkerPool.helper, hd, hd']
  | signal v =>
    have hrest := hi.found v (by simp [WorkerPool.target, hd, DispatchPoint.target])
    have hrest' := (h.inv hi).found v (by simp [WorkerPool.target, hd', DispatchPoint.target])
    -- the worker that is to be signalled is on its way back to its wait, or there
    have hcases := WorkerPool.helper_signal hd hrest
    have hcases' := WorkerPool.helper_signal hd' hrest'
    by_cases hv : v = w
    · subst hv
      obtain ⟨hp, hp'⟩ := h.of_resting hrest
      simp only [hp, hp', reduceCtorEq, true_and, false_and, or_false, false_or] at hcases hcases'
      omega
    · rw [hothers v hv] at hcases'
      right
      rcases hcases with ⟨hp, hhelp, hdist⟩ | ⟨hp, hhelp, hdist⟩
      · simp only [hp, reduceCtorEq, true_and, false_and, or_false] at hcases'
        rw [hcases'.1, hcases'.2, hhelp, hdist]
        simp [Ne.symm hv]
      · simp only [hp, reduceCtorEq, true_and, false_and, false_or] at hcases'
        rw [hcases'.1, hcases'.2, hhelp, hdist]
        simp

/-- Looking at another worker brings the dispatcher nearer if worker 0 is idle. -/
theorem WorkerPool.scan_distance {i j : ℕ} (h : s.dispatcher = some ⟨fn, data, .scan i⟩)
    (hidle : (s.workers 0).busy = false → i ≠ 0 ∧ (j = 0 ∨ i < j ∧ i < maxWorkerNum)) :
    (s.moveDispatcher ⟨fn, data, .scan i⟩ (.scan j)).distance < s.distance
      ∨ (s.moveDispatcher ⟨fn, data, .scan i⟩ (.scan j)).distance = s.distance
        ∧ (s.moveDispatcher ⟨fn, data, .scan i⟩ (.scan j)).helper = s.helper ∧ .dispatcher ≠ s.helper := by
  rw [distance_scan h, helper_scan h, distance_scan (moveDispatcher_dispatcher ..),
    helper_scan (moveDispatcher_dispatcher ..), moveDispatcher_workers]
  cases hb : (s.workers 0).busy with
  | true => simp
  | false =>
    obtain ⟨hi, hj⟩ := hidle hb
    left
    simp only [Bool.false_eq_true, if_false, if_neg hi]
    split_ifs <;> omega

/-- The steps of the dispatcher bring it nearer to the signal, or leave it looking while worker 0 is
busy. -/
theorem PoolStep.dispatcher_distance (h : PoolStep .dispatcher s s') :
    s.signals.length < s'.signals.length
      ∨ s'.signals = s.signals ∧ s'.dispatcher ≠ none
        ∧ (s'.distance < s.distance
          ∨ s'.distance = s.distance ∧ s'.helper = s.helper ∧ .dispatcher ≠ s.helper) := by
  cases h with
  | @skip _ d w h hp hbusy =>
    obtain ⟨fn, data, point⟩ := d
    subst hp
    refine Or.inr ⟨rfl, by simp, WorkerPool.scan_distance h fun hidle => ?_⟩
    refine ⟨fun hzero => ?_, Or.inr ⟨Nat.lt_succ_self _, w.isLt⟩⟩
    -- the loop is not at worker 0, whose flag is clear
    rw [show w = 0 from Fin.ext hzero, hidle] at hbusy
    cases hbusy
  | @found _ d w h hp hidle =>
    obtain ⟨fn, data, point⟩ := d
    subst hp
    refine Or.inr ⟨rfl, by simp, Or.inl ?_⟩
    rw [WorkerPool.distance_scan h]
    simp only [WorkerPool.distance, WorkerPool.moveDispatcher_dispatcher]
    split_ifs <;> omega
  | @again _ d i h hp hend =>
    obtain ⟨fn, data, point⟩ := d
    subst hp
    refine Or.inr ⟨rfl, by simp, WorkerPool.scan_distance h fun _ => ⟨?_, Or.inl rfl⟩⟩
    simp only [maxWorkerNum] at hend
    omega
  | @setBusy _ d w h hp =>
    obtain ⟨fn, data, point⟩ := d
    subst hp
    exact Or.inr ⟨rfl, by simp, Or.inl (by simp [WorkerPool.distance, h])⟩
  | @setFn _ d w h hp =>
    obtain ⟨fn, data, point⟩ := d
    subst hp
    exact Or.inr ⟨rfl, by simp, Or.inl (by simp [WorkerPool.distance, h])⟩
  | @setData _ d w h hp =>
    obtain ⟨fn, data, point⟩ := d
    subst hp
    refine Or.inr ⟨rfl, by simp, Or.inl ?_⟩
    simp only [WorkerPool.distance, h, WorkerPool.setWorker_dispatcher,
      WorkerPool.moveDispatcher_dispatcher]
    split <;> omega
  | signal h hp hwait =>
    left
    simp

end distance

theorem helper_ne_client (s : WorkerPool F D) : s.helper ≠ .client := by
  rw [WorkerPool.helper]
  split
  · split_ifs <;> simp
  · split <;> simp
  · simp

theorem PoolStep.distance_step {t : PoolThread} {s s' : WorkerPool F D} (h : PoolStep t s s')
    (hi : s.Inv) (hd : s.dispatcher ≠ none) :
    s.signals.length < s'.signals.length
      ∨ s'.signals = s.signals ∧ s'.dispatcher ≠ none
        ∧ (s'.distance < s.distance
          ∨ s'.distance = s.distance ∧ s'.helper = s.helper ∧ t ≠ s.helper) := by
  cases t with
  | client =>
    cases h with
    | dispatch _ _ hnone => exact absurd hnone hd
  | dispatcher => exact h.dispatcher_distance
  | worker w =>
    have ⟨hdisp, hsignals, _, _⟩ := h.worker_frame
    exact Or.inr ⟨hsignals, by rwa [hdisp], h.worker_distance hi hd⟩

/-- A call of `sysworker_dispatch_thread` gets to its signal. -/
theorem leadsTo_signalled (hrun : FairRun PoolStep poolThreads run) (k : ℕ) :
    LeadsTo run (fun s => s.Ok ∧ s.dispatcher ≠ none ∧ s.signals.length = k)
      (fun s => s.Ok ∧ k < s.signals.length) := by
  apply hrun.leadsTo_of_rank WorkerPool.distance WorkerPool.helper
  · intro s _
    exact helper_ne_client s
  · intro s ⟨hok, hd, _⟩
    exact hok.inv.helper_enabled hd
  · intro t s s' ⟨hok, hd, hk⟩ hstep
    have hok' := hok.step hstep
    rcases hstep.distance_step hok.inv hd with hlt | ⟨hsame, hd', hdist⟩
    · exact Or.inl ⟨hok', by omega⟩
    · exact Or.inr ⟨⟨hok', hd', by rw [hsame, hk]⟩, hdist⟩

/-- A request that was dispatched is called. -/
theorem leadsTo_dispatched (hrun : FairRun PoolStep poolThreads run) (k : ℕ) :
    LeadsTo run (fun s => s.Ok ∧ k < s.dispatched.length) (fun s => s.Called k) := by
  have hsignalled : LeadsTo run (fun s => s.Ok ∧ k < s.signals.length) (fun s => s.Called k) := by
    intro n ⟨hok, hk⟩
    have hw := List.getElem?_eq_getElem hk
    rcases hok.calls.kept k _ hw with hpending | hcalled
    · exact leadsTo_called hrun _ k n ⟨hok, hpending⟩
    · exact ⟨n, le_rfl, hcalled⟩
  intro n ⟨hok, hk⟩
  by_cases hsent : k < (run n).signals.length
  · exact hsignalled n ⟨hok, hsent⟩
  · -- the one request without a signal is the one that is being dispatched
    have hd : (run n).dispatcher ≠ none := by
      intro hnone
      have := hok.inv.idle hnone
      omega
    have ⟨d, hsome⟩ := Option.ne_none_iff_exists'.mp hd
    have hlen := (hok.inv.current d hsome).1
    exact (leadsTo_signalled hrun k).trans hsignalled n ⟨hok, hd, by omega⟩

end

/-! ## Exactly once -/

/-- No request is called twice, every call is that of the request whose signal the worker received, and
until the call ends the worker's slot has the arguments of that request and no store to it is under
way. -/
structure WorkerPool.ServesOnce (s : WorkerPool F D) : Prop where
  once : (s.calls.map WorkerCall.request).Nodup
  right : ∀ c ∈ s.calls, s.dispatched[c.request]? = some (c.fn, c.data)
    ∧ s.signals[c.request]? = some c.worker
  slot : ∀ w k, (s.workers w).point.serving = some k → s.signals[k]? = some w
    ∧ ∃ fn, (s.workers w).fn = some fn ∧ s.dispatched[k]? = some (fn, (s.workers w).data)
  untouched : ∀ w k, (s.workers w).point.serving = some k → ∀ d, s.dispatcher = some d →
    d.point ≠ .setFn w ∧ d.point ≠ .setData w

theorem WorkerPool.Ok.servesOnce {s : WorkerPool F D} (h : s.Ok) : s.ServesOnce where
  once := h.calls.once
  right := h.calls.right
  slot := fun w k hk => by
    have ⟨r, hr⟩ := h.inv.serves w k hk
    exact ⟨hr.signalled, r.1, hr.fn, by rw [hr.dispatched, hr.data]⟩
  untouched := fun w k hk d hd => by
    have hnot : s.target ≠ some w := by
      intro htarget
      rw [(h.inv.found w htarget).serving_eq] at hk
      cases hk
    rw [target, hd] at hnot
    constructor
    · intro hp
      simp [hp, DispatchPoint.target] at hnot
    · intro hp
      simp [hp, DispatchPoint.target] at hnot

/-- In every interleaving the pool serves each request at most once and undisturbed, and in every fair
run each request that is dispatched is called. -/
theorem pool_serves_once (null : D) :
    (∀ s : WorkerPool F D, Relation.ReflTransGen (fun s s' => ∃ t, PoolStep t s s')
        (sysworkersInit null) s → s.ServesOnce)
      ∧ ∀ run : ℕ → WorkerPool F D, FairRun PoolStep poolThreads run → run 0 = sysworkersInit null →
          ∀ n k, k < (run n).dispatched.length → ∃ m, n ≤ m ∧ (run m).Called k := by
  constructor
  · intro s hrun
    exact ((WorkerPool.sysworkersInit_ok null).run hrun).servesOnce
  · intro run hrun hstart n k hk
    have hok : (run n).Ok := by
      apply hrun.invariant
      · rw [hstart]
        exact WorkerPool.sysworkersInit_ok null
      · exact fun t s s' hs hstep => hs.step hstep
    exact leadsTo_dispatched hrun k n ⟨hok, hk⟩

/-- The steps that serve one request, from the one that finds worker 0. -/
def serveNext (d : Dispatch Unit Unit) (s : WorkerPool Unit Unit) : ℕ → WorkerPool Unit Unit
  | 0 => s.moveDispatcher d (.setBusy 0)
  | 1 => (s.moveDispatcher d (.setFn 0)).setWorker 0 { s.workers 0 with busy := true }
  | 2 => (s.moveDispatcher d (.setData 0)).setWorker 0 { s.workers 0 with fn := some d.fn }
  | 3 => (s.moveDispatcher d (.signal 0)).setWorker 0 { s.workers 0 with data := d.data }
  | 4 => { s.moveWorker 0 (.assertFn s.signals.length) with
      dispatcher := none
      signals := s.signals ++ [0] }
  | 5 => s.moveWorker 0 (.loadFn 0)
  | 6 => s.moveWorker 0 (.loadData 0 ())
  | 7 => { s.moveWorker 0 (.call 0 () (s.workers 0).data) with
      calls := s.calls ++ [⟨0, 0, (), (s.workers 0).data⟩] }
  | 8 => s.moveWorker 0 .clearBusy
  | 9 => s.setWorker 0 { s.workers 0 with busy := false, point := .back }
  | 10 => s.moveWorker 0 .wait
  | _ => s

/-- The run in which one request is dispatched and served, and nothing happens after that. -/
def serveOne : ℕ → WorkerPool Unit Unit
  | 0 => sysworkersInit ()
  | 1 => { (sysworkersInit () : WorkerPool Unit Unit) with
      dispatcher := some ⟨(), (), .scan 0⟩
      dispatched := [((), ())] }
  | n + 2 => serveNext ⟨(), (), .scan 0⟩ (serveOne (n + 1)) n

theorem serveOne_next (n : ℕ) : serveOne (n + 1) = serveOne n
    ∨ ∃ t, PoolStep t (serveOne n) (serveOne (n + 1)) :=
  match n with
  | 0 => Or.inr ⟨_, .dispatch () () rfl⟩
  | 1 => Or.inr ⟨_, .found (w := 0) rfl rfl rfl⟩
  | 2 => Or.inr ⟨_, .setBusy (d := ⟨(), (), .setBusy 0⟩) rfl rfl⟩
  | 3 => Or.inr ⟨_, .setFn (d := ⟨(), (), .setFn 0⟩) rfl rfl⟩
  | 4 => Or.inr ⟨_, .setData (d := ⟨(), (), .setData 0⟩) rfl rfl⟩
  | 5 => Or.inr ⟨_, .signal rfl rfl rfl⟩
  | 6 => Or.inr ⟨_, .assertFn rfl (by decide)⟩
  | 7 => Or.inr ⟨_, .loadFn rfl rfl⟩
  | 8 => Or.inr ⟨_, .call rfl⟩
  | 9 => Or.inr ⟨_, .ret rfl⟩
  | 10 => Or.inr ⟨_, .clearBusy rfl⟩
  | 11 => Or.inr ⟨_, .back rfl⟩
  | _ + 12 => Or.inl rfl

theorem serveOne_end (n : ℕ) : serveOne (n + 12) = serveOne 12 := by
  induction n with
  | zero => rfl
  | succ n ih => exact ih

theorem serveOne_idle (w : WorkerId) : ((serveOne 12).workers w).point = .wait := by
  by_cases hw : w = 0
  · subst hw
    rfl
  · simp [serveOne, serveNext, sysworkersInit, hw]

theorem serveOne_fair : FairRun PoolStep poolThreads serveOne where
  next := serveOne_next
  weak := fun t ht n => by
    refine ⟨n + 12, by omega, Or.inl fun s' hstep => ?_⟩
    rw [serveOne_end] at hstep
    cases t with
    | client => exact ht rfl
    | dispatcher =>
      cases hstep <;> simp_all [serveOne, serveNext]
    | worker w =>
      have hw := serveOne_idle w
      cases hstep <;> simp_all

/-- The request of that run is called. -/
theorem pool_serves_once_one : ∃ m, 1 ≤ m ∧ (serveOne m).Called 0 :=
  (pool_serves_once ()).2 serveOne serveOne_fair rfl 1 0 (by decide)

end SeL4Sys
