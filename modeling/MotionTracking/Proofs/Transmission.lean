import Mathlib.Algebra.BigOperators.Group.Finset.Piecewise
import MotionTracking.Firmware.SerialOut

/-!
# `MotionTracking.Proofs.Transmission`: no byte is lost, and none is stuck

Any number of threads print over `SD2` at once, with any calls, in any
interleaving with the transmit interrupt.

`output_in_order` is about safety. What was sent and what is in the queue are the
bytes put, in order. What a thread put is what its calls reported, in the order of
the calls, and a call without a timeout reports all of its bytes.

`output_drains` is about progress. `oqGetI` wakes one thread only, and the woken
thread may find its place taken. Still no wake-up is lost (`Served`): while a
thread waits, there is a woken thread for every free place. With the transmit
interrupt enabled while there are bytes (`Sound.armed`), the moves of threads and
interrupts cannot go on for ever without a new call (`work_step`), and they do not
end before every call has returned and every byte is sent.
-/

set_option autoImplicit false

namespace MotionTracking

open ChibiOS (OutputQueue)

/-- How far a call is from its end, apart from its bytes. -/
def Place.toGo : Place → Nat
  | .woken m => if m = .MSG_OK then 3 else 1
  | .asleep => 2
  | .running => 3

/-- The work of a call. A byte to put is worth what it costs to send it, and the two
interrupt flags that putting it can set. -/
def Pending.work : Option Pending → Nat
  | none => 0
  | some p => 5 * p.rest.length + p.place.toGo

/-- The work of a call that has not returned. -/
theorem Pending.work_some (p : Pending) :
    Pending.work (some p) = 5 * p.rest.length + p.place.toGo := rfl

/-- The work of a call does not tell how far it is, but by its place. -/
theorem Pending.work_place (p : Pending) (place : Place) :
    Pending.work (some { p with place := place }) = 5 * p.rest.length + place.toGo := rfl

namespace SerialOut

variable {T : Type} [DecidableEq T]

/-- What thread `t` has put. -/
def bytesOf (t : T) (s : SerialOut T) : List UInt8 :=
  (s.accepted.filter (·.1 = t)).map Prod.snd

/-- What a returned call put. -/
def reported (cr : OutCall × OutResult) : List UInt8 := cr.1.bytes.take cr.2.count

/-- What a call that has not returned has put. -/
def progress : Option Pending → List UInt8
  | none => []
  | some p => p.call.bytes.take p.done

/-- The result is possible, and without a timeout it is complete. -/
structure Whole (cr : OutCall × OutResult) : Prop where
  le : cr.2.count ≤ cr.1.bytes.length
  complete : cr.1.timeout = TIME_INFINITE → cr.2.count = cr.1.bytes.length

/-- While a thread waits, there is a woken thread for every free place. -/
def Served (s : SerialOut T) : Prop :=
  s.qWaiting ≠ [] → ∃ ts : List T, ts.Nodup ∧ s.oqueue.counter ≤ ts.length ∧
    ∀ t ∈ ts, ∃ p, s.pending t = some p ∧ p.place = .woken .MSG_OK

/-- What holds in every reachable state. -/
structure Inv (s : SerialOut T) : Prop where
  sound : s.Sound
  fifo : s.sent ++ s.oqueue.contents = s.accepted.map Prod.snd
  own : ∀ t, s.bytesOf t = (s.returned t).flatMap reported ++ progress (s.pending t)
  whole : ∀ t, ∀ cr ∈ s.returned t, Whole cr
  served : s.Served

variable {s s' : SerialOut T} {m : OutMove T}

/-! ### The calls and the line -/

/-- A thread without a call has nothing to keep. -/
theorem none_ok {P : Pending → Prop} : ∀ p, none = some p → P p := by
  intro p hp
  cases hp

/-- A field of one thread is set to a value with the property. -/
theorem ok_update {f : T → Option Pending} {P : Pending → Prop} {t : T} {v : Option Pending}
    (h : ∀ u p, f u = some p → P p) (hv : ∀ p, v = some p → P p) :
    ∀ u p, Function.update f t v u = some p → P p := by
  intro u p hp
  by_cases hu : u = t
  · subst hu
    rw [Function.update_self] at hp
    exact hv p hp
  · rw [Function.update_of_ne hu] at hp
    exact h u p hp

/-- The other calls wait as before. -/
theorem line_update {f : T → Option Pending} {l : List T} {t : T} {v : Option Pending}
    (h : ∀ u, u ∈ l ↔ ∃ p, f u = some p ∧ p.place = .asleep) (l' : List T)
    (hl : ∀ u, u ≠ t → (u ∈ l' ↔ u ∈ l))
    (hv : t ∈ l' ↔ ∃ p, v = some p ∧ p.place = .asleep) :
    ∀ u, u ∈ l' ↔ ∃ p, Function.update f t v u = some p ∧ p.place = .asleep := by
  intro u
  by_cases hu : u = t
  · subst hu
    rw [Function.update_self]
    exact hv
  · rw [Function.update_of_ne hu, hl u hu]
    exact h u

omit [DecidableEq T] in
/-- A thread that can run is not in line. -/
theorem Sound.not_mem (h : s.Sound) {t : T} {p : Pending} (hp : s.pending t = some p)
    (awake : p.place ≠ .asleep) : t ∉ s.qWaiting := by
  intro hmem
  obtain ⟨p', hp', hplace⟩ := (h.line t).mp hmem
  rw [hp] at hp'
  cases hp'
  exact awake hplace

/-- The bytes that are left, counted. -/
theorem length_rest (p : Pending) : p.rest.length = p.call.bytes.length - p.done := by
  rw [Pending.rest, List.length_drop]

/-- A new call is in order. -/
theorem ok_began (c : OutCall) : (Pending.mk c 0 .running).Ok :=
  ⟨Nat.zero_le _, fun _ _ _ => rfl, fun h => absurd rfl h, fun _ h => Place.noConfusion h⟩

/-- A call that has put some of its bytes is in order. -/
theorem ok_put {p : Pending} (h : p.Ok) {bs more : List UInt8} (hbs : p.rest = bs ++ more)
    (hcall : ∀ b timeout, p.call ≠ .oqPutTimeout b timeout) :
    Pending.Ok { p with done := p.done + bs.length, place := .running } := by
  have hlen := congrArg List.length hbs
  have hbound := h.bound
  rw [length_rest, List.length_append] at hlen
  refine ⟨?_, fun b timeout hc => absurd hc (hcall b timeout), fun hr => absurd rfl hr,
    fun _ hw => Place.noConfusion hw⟩
  show p.done + bs.length ≤ p.call.bytes.length
  omega

/-- A call that waits with bytes left is in order. -/
theorem ok_slept {p : Pending} (h : p.Ok) (hrest : p.rest ≠ []) :
    Pending.Ok { p with place := .asleep } :=
  ⟨h.bound, h.single, fun _ => hrest, fun _ hw => Place.noConfusion hw⟩

/-- A call whose wait has ended is in order. -/
theorem ok_woken {p : Pending} (h : p.Ok) (asleep : p.place = .asleep) {m : Msg}
    (finite : m ≠ .MSG_OK → p.call.timeout ≠ TIME_INFINITE) :
    Pending.Ok { p with place := .woken m } := by
  have hrest : p.rest ≠ [] := h.waits (by rw [asleep]; exact Place.noConfusion)
  refine ⟨h.bound, h.single, fun _ => hrest, fun m' hw hm' => ?_⟩
  cases hw
  exact finite hm'

/-- A call returns, or goes on, without waiting. -/
theorem line_of_not_mem {f : T → Option Pending} {l : List T} {t : T} {v : Option Pending}
    (h : ∀ u, u ∈ l ↔ ∃ p, f u = some p ∧ p.place = .asleep) (ht : t ∉ l)
    (hv : ∀ p, v = some p → p.place ≠ .asleep) :
    ∀ u, u ∈ l ↔ ∃ p, Function.update f t v u = some p ∧ p.place = .asleep := by
  refine line_update h l (fun _ _ => Iff.rfl) ?_
  constructor
  · intro hmem
    exact absurd hmem ht
  · rintro ⟨p, hp, hplace⟩
    exact absurd hplace (hv p hp)

/-- Every move keeps the calls, the line and the queue in order. -/
theorem sound_step (h : s.Sound) (hd : Does s m s') : s'.Sound := by
  cases hd with
  | @began t c hp =>
      have hmem : t ∉ s.qWaiting := by
        intro hmem
        obtain ⟨p, hp', -⟩ := (h.line t).mp hmem
        rw [hp] at hp'
        cases hp'
      refine ⟨h.wf, ok_update h.pending ?_, h.armed, h.nodup, line_of_not_mem h.line hmem ?_⟩
      · intro p hv
        cases hv
        exact ok_began c
      · intro p hv
        cases hv
        exact Place.noConfusion
  | @put t p bs q hp tries pos hcall hbs hq =>
      obtain ⟨more, hbs⟩ := hbs
      refine ⟨hq.wf, ok_update h.pending ?_, fun _ => rfl, h.nodup,
        line_of_not_mem h.line (h.not_mem hp tries.awake) ?_⟩
      · intro p' hv
        cases hv
        exact ok_put (h.pending t p hp) hbs hcall
      · intro p' hv
        cases hv
        exact Place.noConfusion
  | @putLast t p bs q r hp tries pos hbs hr hq =>
      exact ⟨hq.wf, ok_update h.pending none_ok, fun _ => rfl, h.nodup,
        line_of_not_mem h.line (h.not_mem hp tries.awake) none_ok⟩
  | @slept t p hp tries full hrest =>
      have hmem := h.not_mem hp tries.awake
      refine ⟨h.wf, ok_update h.pending ?_, h.armed, ?_, line_update h.line _ ?_ ?_⟩
      · intro p' hv
        cases hv
        exact ok_slept (h.pending t p hp) hrest
      · exact List.nodup_append.mpr ⟨h.nodup, List.nodup_singleton t, fun u hu v hv => by
          rw [List.mem_singleton.mp hv]
          rintro rfl
          exact hmem hu⟩
      · intro u hu
        simp [hu]
      · simp
  | @ended t p r hp awake hr unused complete =>
      exact ⟨h.wf, ok_update h.pending none_ok, h.armed, h.nodup,
        line_of_not_mem h.line (h.not_mem hp awake) none_ok⟩
  | @expired t p hp asleep finite =>
      refine ⟨h.wf, ok_update h.pending ?_, h.armed, h.nodup.erase t, line_update h.line _ ?_ ?_⟩
      · intro p' hv
        cases hv
        exact ok_woken (h.pending t p hp) asleep fun _ => finite
      · intro u hu
        exact List.mem_erase_of_ne hu
      · simp [h.nodup.mem_erase_iff]
  | @sent sr b q tcie hq flag alone =>
      refine ⟨hq.wf, h.pending, fun _ => h.armed ?_, h.nodup, h.line⟩
      rw [hq.contents]
      exact List.cons_ne_nil b _
  | @sentWaking sr b q tcie t ts p hq flag first hp asleep =>
      have hnodup := h.nodup
      rw [first, List.nodup_cons] at hnodup
      refine ⟨hq.wf, ok_update h.pending ?_, fun _ => h.armed ?_, hnodup.2,
        line_update h.line _ ?_ ?_⟩
      · intro p' hv
        cases hv
        exact ok_woken (h.pending t p hp) asleep fun hm => absurd rfl hm
      · rw [hq.contents]
        exact List.cons_ne_nil b _
      · intro u hu
        rw [first]
        simp [hu]
      · simp [hnodup.1]
  | quiet empty flags =>
      exact ⟨h.wf, h.pending, fun hne => absurd empty hne, h.nodup, h.line⟩

/-! ### The bytes -/

/-- The bytes sent and the bytes in the queue stay the bytes put. -/
theorem fifo_step (h : s.sent ++ s.oqueue.contents = s.accepted.map Prod.snd) (hd : Does s m s') :
    s'.sent ++ s'.oqueue.contents = s'.accepted.map Prod.snd := by
  have hstored : ∀ {t : T} {bs : List UInt8} {q : SdOQueue}, Appended s.oqueue bs q →
      s.sent ++ q.contents = (s.accepted ++ bs.map fun b => (t, b)).map Prod.snd := by
    intro t bs q hq
    rw [hq.contents, ← List.append_assoc, h, List.map_append, List.map_map]
    congr 1
    exact (List.map_id bs).symm
  have hsent : ∀ {b : UInt8} {q : SdOQueue}, Taken s.oqueue b q →
      (s.sent ++ [b]) ++ q.contents = s.accepted.map Prod.snd := by
    intro b q hq
    rw [← h, hq.contents, List.append_assoc, List.singleton_append]
  cases hd with
  | began c hp => exact h
  | put hp tries pos hcall hbs hq => exact hstored hq
  | putLast hp tries pos hbs hr hq => exact hstored hq
  | slept hp tries full hrest => exact h
  | ended hp awake hr unused complete => exact h
  | expired hp asleep finite => exact h
  | sent hq flag alone => exact hsent hq
  | sentWaking hq flag first hp asleep => exact hsent hq
  | quiet empty flags => exact h

/-- Bytes that are put are those of one thread. -/
theorem bytesOf_store (t u : T) (bs : List UInt8) (q : SdOQueue) (s : SerialOut T) :
    (s.store t bs q).bytesOf u = if u = t then s.bytesOf u ++ bs else s.bytesOf u := by
  have hmap : ∀ bs : List UInt8, ((bs.map fun b => (t, b)).filter (·.1 = u)).map Prod.snd =
      if u = t then bs else [] := by
    intro bs
    induction bs with
    | nil => simp
    | cons b bs ih =>
        by_cases hu : t = u
        · simp_all
        · have hu' : u ≠ t := fun he => hu he.symm
          simp_all
  unfold bytesOf store
  rw [List.filter_append, List.map_append, hmap]
  split
  · rfl
  · rw [List.append_nil]

/-- What has been put is a beginning of the call's bytes. -/
theorem progress_put {p : Pending} {bs more : List UInt8}
    (hbs : p.rest = bs ++ more) :
    p.call.bytes.take (p.done + bs.length) = p.call.bytes.take p.done ++ bs := by
  rw [List.take_add]
  congr 1
  show p.rest.take bs.length = bs
  rw [hbs, List.take_left]

/-- Each thread has put what its calls report. -/
theorem own_step
    (hown : ∀ t, s.bytesOf t = (s.returned t).flatMap reported ++ progress (s.pending t))
    (hd : Does s m s') :
    ∀ t, s'.bytesOf t = (s'.returned t).flatMap reported ++ progress (s'.pending t) := by
  have hupdate : ∀ {t : T} {v : Option Pending}, progress v = progress (s.pending t) →
      ∀ u, s.bytesOf u = (s.returned u).flatMap reported ++
        progress (Function.update s.pending t v u) := by
    intro t v hv u
    by_cases hu : u = t
    · subst hu
      rw [Function.update_self, hv]
      exact hown u
    · rw [Function.update_of_ne hu]
      exact hown u
  cases hd with
  | began c hp => exact hupdate (by rw [hp]; rfl)
  | @put t p bs q hp tries pos hcall hbs hq =>
      obtain ⟨more, hbs⟩ := hbs
      intro u
      have hbytes := bytesOf_store t u bs q s
      show (s.store t bs q).bytesOf u = _
      rw [hbytes, hown u]
      by_cases hu : u = t
      · subst hu
        have hprogress := progress_put hbs
        rw [if_pos rfl, hp, List.append_assoc]
        show _ = _ ++ progress (Function.update s.pending u _ u)
        rw [Function.update_self]
        show _ = _ ++ p.call.bytes.take (p.done + bs.length)
        rw [hprogress]
        rfl
      · rw [if_neg hu]
        show _ = _ ++ progress (Function.update s.pending t _ u)
        rw [Function.update_of_ne hu]
        rfl
  | @putLast t p bs q r hp tries pos hbs hr hq =>
      intro u
      have hbytes := bytesOf_store t u bs q s
      show (s.store t bs q).bytesOf u =
        (Function.update s.returned t (s.returned t ++ [(p.call, r)]) u).flatMap reported ++
          progress (Function.update s.pending t none u)
      rw [hbytes, hown u]
      by_cases hu : u = t
      · subst hu
        have hprogress := progress_put (hbs.trans (List.append_nil bs).symm)
        rw [if_pos rfl, hp, Function.update_self, Function.update_self, List.flatMap_append,
          List.append_assoc, List.append_assoc]
        congr 1
        show p.call.bytes.take p.done ++ bs = p.call.bytes.take r.count ++ [] ++ []
        rw [hr, hprogress, List.append_nil, List.append_nil]
      · rw [if_neg hu, Function.update_of_ne hu, Function.update_of_ne hu]
  | slept hp tries full hrest => exact hupdate (by rw [hp]; rfl)
  | @ended t p r hp awake hr unused complete =>
      intro u
      show s.bytesOf u =
        (Function.update s.returned t (s.returned t ++ [(p.call, r)]) u).flatMap reported ++
          progress (Function.update s.pending t none u)
      rw [hown u]
      by_cases hu : u = t
      · subst hu
        rw [hp, Function.update_self, Function.update_self, List.flatMap_append,
          List.append_assoc]
        congr 1
        show p.call.bytes.take p.done = p.call.bytes.take r.count ++ [] ++ []
        rw [hr, List.append_nil, List.append_nil]
      · rw [Function.update_of_ne hu, Function.update_of_ne hu]
  | expired hp asleep finite => exact hupdate (by rw [hp]; rfl)
  | sent hq flag alone => exact hown
  | sentWaking hq flag first hp asleep => exact hupdate (by rw [hp]; rfl)
  | quiet empty flags => exact hown

/-! ### The results -/

/-- Each move keeps the results whole, by cases on the move. -/
theorem whole_step (h : s.Sound) (hwhole : ∀ t, ∀ cr ∈ s.returned t, Whole cr)
    (hd : Does s m s') : ∀ t, ∀ cr ∈ s'.returned t, Whole cr := by
  have hfinish : ∀ {t : T} {p : Pending} {r : OutResult}, Whole (p.call, r) →
      ∀ u, ∀ cr ∈ Function.update s.returned t (s.returned t ++ [(p.call, r)]) u, Whole cr := by
    intro t p r hr u cr hcr
    by_cases hu : u = t
    · subst hu
      rw [Function.update_self, List.mem_append, List.mem_singleton] at hcr
      rcases hcr with hcr | rfl
      · exact hwhole u cr hcr
      · exact hr
    · rw [Function.update_of_ne hu] at hcr
      exact hwhole u cr hcr
  cases hd with
  | @putLast t p bs q r hp tries pos hbs hr hq =>
      have hbound := (h.pending t p hp).bound
      have hlen := congrArg List.length hbs
      rw [length_rest] at hlen
      refine hfinish ⟨?_, fun _ => ?_⟩
      · show r.count ≤ p.call.bytes.length
        omega
      · show r.count = p.call.bytes.length
        omega
  | @ended t p r hp awake hr unused complete =>
      have hok := h.pending t p hp
      have hbound := hok.bound
      refine hfinish ⟨?_, fun hinf => ?_⟩
      · show r.count ≤ p.call.bytes.length
        omega
      · rcases complete hinf with hnil | ⟨m, hm, hne⟩
        · have hlen := congrArg List.length hnil
          rw [length_rest, List.length_nil] at hlen
          show r.count = p.call.bytes.length
          omega
        · exact absurd hinf (hok.finite m hm hne)
  | began c hp => exact hwhole
  | put hp tries pos hcall hbs hq => exact hwhole
  | slept hp tries full hrest => exact hwhole
  | expired hp asleep finite => exact hwhole
  | sent hq flag alone => exact hwhole
  | sentWaking hq flag first hp asleep => exact hwhole
  | quiet empty flags => exact hwhole

/-! ### The wake-ups -/

/-- The woken threads, less `t`, whose call changes. -/
theorem woken_erase {ts : List T} {t : T} {v : Option Pending} (hnodup : ts.Nodup)
    (hts : ∀ t ∈ ts, ∃ p, s.pending t = some p ∧ p.place = .woken .MSG_OK) :
    (ts.erase t).Nodup ∧ ∀ u ∈ ts.erase t,
      ∃ p, Function.update s.pending t v u = some p ∧ p.place = .woken .MSG_OK := by
  refine ⟨hnodup.erase t, ?_⟩
  intro u hu
  obtain ⟨hne, hmem⟩ := hnodup.mem_erase_iff.mp hu
  rw [Function.update_of_ne hne]
  exact hts u hmem

/-- The woken threads stay so while another thread moves. -/
theorem woken_update {ts : List T} {t : T} {v : Option Pending}
    (hts : ∀ t ∈ ts, ∃ p, s.pending t = some p ∧ p.place = .woken .MSG_OK) (ht : t ∉ ts) :
    ∀ u ∈ ts, ∃ p, Function.update s.pending t v u = some p ∧ p.place = .woken .MSG_OK := by
  intro u hu
  have hne : u ≠ t := by
    rintro rfl
    exact ht hu
  rw [Function.update_of_ne hne]
  exact hts u hu

/-- A thread that puts bytes uses up a free place and its own wake-up. -/
theorem served_put (hserved : s.Served) {t : T} {v : Option Pending} {bs : List UInt8}
    {q : SdOQueue} (pos : bs ≠ []) (hq : Appended s.oqueue bs q) (hw : s.qWaiting ≠ []) :
    ∃ ts : List T, ts.Nodup ∧ q.counter ≤ ts.length ∧
      ∀ u ∈ ts, ∃ p, Function.update s.pending t v u = some p ∧ p.place = .woken .MSG_OK := by
  obtain ⟨ts, hnodup, hcount, hts⟩ := hserved hw
  obtain ⟨hnodup', hts'⟩ := woken_erase (t := t) (v := v) hnodup hts
  refine ⟨ts.erase t, hnodup', ?_, hts'⟩
  have hpos := List.length_pos_iff.mpr pos
  have hcounter := hq.counter
  have hlen : ts.length ≤ (ts.erase t).length + 1 := by
    rw [List.length_erase]
    split <;> omega
  omega

omit [DecidableEq T] in
/-- A thread in another place is not among the woken ones. -/
theorem not_woken {ts : List T} {t : T} {p : Pending}
    (hts : ∀ t ∈ ts, ∃ p, s.pending t = some p ∧ p.place = .woken .MSG_OK)
    (hp : s.pending t = some p) (hplace : p.place ≠ .woken .MSG_OK) : t ∉ ts := by
  intro hmem
  obtain ⟨p', hp', hplace'⟩ := hts t hmem
  rw [hp] at hp'
  cases hp'
  exact hplace hplace'

/-- No wake-up is lost. -/
theorem served_step (h : s.Sound) (hserved : s.Served) (hd : Does s m s') : s'.Served := by
  cases hd with
  | @began t c hp =>
      intro hw
      obtain ⟨ts, hnodup, hcount, hts⟩ := hserved hw
      refine ⟨ts, hnodup, hcount, woken_update hts ?_⟩
      intro hmem
      obtain ⟨p, hp', -⟩ := hts t hmem
      rw [hp] at hp'
      cases hp'
  | put hp tries pos hcall hbs hq => exact fun hw => served_put hserved pos hq hw
  | putLast hp tries pos hbs hr hq => exact fun hw => served_put hserved pos hq hw
  | slept hp tries full hrest =>
      intro _
      exact ⟨[], List.nodup_nil, full.le, fun u hu => nomatch hu⟩
  | @ended t p r hp awake hr unused complete =>
      intro hw
      rcases Nat.eq_zero_or_pos s.oqueue.counter with h0 | hpos
      · exact ⟨[], List.nodup_nil, h0.le, fun u hu => nomatch hu⟩
      · -- With room in the queue, a woken thread does not leave without putting something.
        obtain ⟨ts, hnodup, hcount, hts⟩ := hserved hw
        refine ⟨ts, hnodup, hcount, woken_update hts (not_woken hts hp ?_)⟩
        intro hplace
        rcases unused hplace with hnil | h0
        · exact (h.pending t p hp).waits (by rw [hplace]; exact Place.noConfusion) hnil
        · omega
  | @expired t p hp asleep finite =>
      intro hw
      have hw' : s.qWaiting ≠ [] := by
        intro hnil
        show False
        refine hw ?_
        show s.qWaiting.erase t = []
        rw [hnil]
        rfl
      obtain ⟨ts, hnodup, hcount, hts⟩ := hserved hw'
      refine ⟨ts, hnodup, hcount, woken_update hts (not_woken hts hp ?_)⟩
      rw [asleep]
      exact Place.noConfusion
  | sent hq flag alone => exact fun hw => absurd alone hw
  | @sentWaking sr b q tcie t ts p hq flag first hp asleep =>
      intro _
      have hw : s.qWaiting ≠ [] := by
        rw [first]
        exact List.cons_ne_nil t ts
      obtain ⟨woken, hnodup, hcount, hwoken⟩ := hserved hw
      have hmem := not_woken hwoken hp (by rw [asleep]; exact Place.noConfusion)
      refine ⟨t :: woken, List.nodup_cons.mpr ⟨hmem, hnodup⟩, ?_, ?_⟩
      · show q.counter ≤ (t :: woken).length
        rw [hq.counter, List.length_cons]
        omega
      · intro u hu
        rcases List.mem_cons.mp hu with rfl | hu
        · exact ⟨_, Function.update_self u _ _, rfl⟩
        · exact woken_update hwoken hmem u hu
  | quiet empty flags => exact hserved

/-! ### Runs -/

/-- Each move keeps the invariant, field by field. -/
theorem Inv.step (h : s.Inv) (hm : step m s = some s') : s'.Inv := by
  have hd := step_does h.sound hm
  exact ⟨sound_step h.sound hd, fifo_step h.fifo hd, own_step h.own hd,
    whole_step h.sound h.whole hd, served_step h.sound h.served hd⟩

/-- The invariant holds at the start. -/
theorem inv_init (mem : Nat → UInt8) : (init mem : SerialOut T).Inv := by
  have hwf := OutputQueue.oqObjectInit_wf (N := SERIAL_BUFFERS_SIZE) (by decide) mem
  have hnil := OutputQueue.contents_oqObjectInit (N := SERIAL_BUFFERS_SIZE) mem
  have hnone : ∀ t, ∀ cr ∈ (init mem : SerialOut T).returned t, Whole cr := by
    intro t cr hcr
    cases hcr
  refine ⟨⟨hwf, fun t => none_ok, fun hne => absurd hnil hne, List.nodup_nil, ?_⟩, hnil,
    fun t => rfl, hnone, fun hw => absurd rfl hw⟩
  intro t
  constructor
  · intro hmem
    cases hmem
  · rintro ⟨p, hp, -⟩
    cases hp

/-- The invariant holds after every run, by induction on the moves. -/
theorem Inv.run {ms : List (OutMove T)} (h : s.Inv) (hr : run ms s = some s') : s'.Inv := by
  induction ms generalizing s with
  | nil =>
      cases hr
      exact h
  | cons m ms ih =>
      obtain ⟨s₁, hs₁, hrest⟩ := Option.bind_eq_some_iff.mp hr
      exact ih (h.step hs₁) hrest

/-- The bytes sent, and then those in the queue, are the bytes put, in the order in
which they were put. Each thread put what its calls reported, in the order of the
calls, and the first bytes of the call it is in. A call without a timeout reports
all of its bytes. -/
theorem output_in_order {mem : Nat → UInt8} {s : SerialOut T} (h : Reaches (init mem) s) :
    s.sent ++ s.oqueue.contents = s.accepted.map Prod.snd ∧
      (∀ t, s.bytesOf t = (s.returned t).flatMap reported ++ progress (s.pending t)) ∧
      ∀ t, ∀ cr ∈ s.returned t, cr.2.count ≤ cr.1.bytes.length ∧
        (cr.1.timeout = TIME_INFINITE → reported cr = cr.1.bytes) := by
  obtain ⟨ms, hms⟩ := h
  have hinv := (inv_init mem).run hms
  refine ⟨hinv.fifo, hinv.own, ?_⟩
  intro t cr hcr
  have hwhole := hinv.whole t cr hcr
  refine ⟨hwhole.le, fun hinf => ?_⟩
  rw [reported, hwhole.complete hinf, List.take_length]

/-- Two threads come to a full queue. -/
def twoCalls : List (OutMove Tid) :=
  [.call .serial (.oqWriteTimeout (List.replicate 17 1) TIME_INFINITE), .run .serial, .run .serial,
    .call .main (.oqPutTimeout 2 TIME_INFINITE), .run .main]

/-- They are woken one after the other. -/
def sending : List (OutMove Tid) :=
  [.interrupt .txe, .run .serial, .interrupt .txe, .run .main, .run .serial] ++
    List.replicate 17 (.interrupt .txe) ++ [.interrupt .complete]

/-- The queue runs full, two threads wait, and the bytes come out in order. -/
theorem output_in_order_two : ∃ s : SerialOut Tid,
    Reaches (init fun _ => 0) s ∧ s.sent = List.replicate 17 1 ++ [2] ∧
      s.sent ++ s.oqueue.contents = s.accepted.map Prod.snd := by
  have hrun : (run (twoCalls ++ sending) (init fun _ => 0)).any
      (fun s => decide (s.sent = List.replicate 17 1 ++ [2])) = true := by decide
  obtain ⟨s, hs, hsent⟩ := (Option.any_eq_true _ _).mp hrun
  exact ⟨s, ⟨_, hs⟩, of_decide_eq_true hsent, (output_in_order ⟨_, hs⟩).1⟩

/-! ### Progress -/

variable [Fintype T]

/-- The work of the calls. -/
def callWork (f : T → Option Pending) : Nat := ∑ t, Pending.work (f t)

/-- The work left. No move but a new call adds to it. -/
def work (s : SerialOut T) : Nat :=
  callWork s.pending + 2 * s.oqueue.contents.length + s.txeie.toNat + s.tcie.toNat

/-- The work of one thread is exchanged. -/
theorem callWork_update (f : T → Option Pending) (t : T) (v : Option Pending) :
    callWork (Function.update f t v) + Pending.work (f t) = callWork f + Pending.work v := by
  have hcomp : (fun u => Pending.work (Function.update f t v u)) =
      Function.update (fun u => Pending.work (f u)) t (Pending.work v) := by
    funext u
    by_cases hu : u = t
    · subst hu
      rw [Function.update_self, Function.update_self]
    · rw [Function.update_of_ne hu, Function.update_of_ne hu]
  unfold callWork
  rw [hcomp, Finset.sum_update_of_mem (Finset.mem_univ t),
    Finset.sum_eq_add_sum_sdiff_singleton_of_mem (Finset.mem_univ t) fun u => Pending.work (f u)]
  omega

/-- A flag that is not set costs nothing. -/
theorem toNat_mono {a b : Bool} (h : a = true → b = true) : a.toNat ≤ b.toNat := by
  cases a with
  | false => exact Nat.zero_le _
  | true => rw [h rfl]

/-- A thread that is about to try is as far from its end as one that begins. -/
theorem tries_toGo {place : Place} (h : place.Tries) : place.toGo = 3 := by
  rcases h with rfl | rfl
  · rfl
  · rfl

/-- No call is over while it has not returned. -/
theorem toGo_pos (place : Place) : 0 < place.toGo := by
  cases place with
  | running => decide
  | asleep => decide
  | woken m => cases m <;> decide

/-- Bytes put are bytes to send. -/
theorem work_put {t : T} {p : Pending} {v : Option Pending} {bs : List UInt8} {q : SdOQueue}
    (hp : s.pending t = some p) (tries : p.place.Tries) (pos : bs ≠ [])
    (hq : Appended s.oqueue bs q)
    (hv : Pending.work v + 5 * bs.length ≤ 5 * p.rest.length + 3) :
    callWork (Function.update s.pending t v) + 2 * q.contents.length + 1 + 1 < s.work := by
  have hsum := callWork_update s.pending t v
  have hpos := List.length_pos_iff.mpr pos
  have hlen := congrArg List.length hq.contents
  rw [List.length_append] at hlen
  rw [hp, Pending.work_some, tries_toGo tries] at hsum
  unfold work
  omega

/-- Every move but a new call takes work away. -/
theorem work_step (hd : Does s m s') (hm : m.isCall = false) : s'.work < s.work := by
  cases hd with
  | began c hp => cases hm
  | @put t p bs q hp tries pos hcall hbs hq =>
      obtain ⟨more, hbs⟩ := hbs
      have hlen := congrArg List.length hbs
      rw [length_rest, List.length_append] at hlen
      refine work_put hp tries pos hq ?_
      rw [Pending.work_some, length_rest, length_rest]
      show 5 * (p.call.bytes.length - (p.done + bs.length)) + 3 + 5 * bs.length ≤ _
      omega
  | @putLast t p bs q r hp tries pos hbs hr hq =>
      refine work_put hp tries pos hq ?_
      rw [hbs]
      show 0 + 5 * bs.length ≤ _
      omega
  | @slept t p hp tries full hrest =>
      have hsum := callWork_update s.pending t (some { p with place := .asleep })
      have htoGo : Place.asleep.toGo = 2 := rfl
      rw [hp, Pending.work_some, Pending.work_place, tries_toGo tries, htoGo] at hsum
      show callWork (Function.update s.pending t _) + 2 * s.oqueue.contents.length + s.txeie.toNat +
        s.tcie.toNat < s.work
      unfold work
      omega
  | @ended t p r hp awake hr unused complete =>
      have hsum := callWork_update s.pending t none
      have hpos := toGo_pos p.place
      have hnone : Pending.work none = 0 := rfl
      rw [hp, Pending.work_some, hnone] at hsum
      show callWork (Function.update s.pending t none) + 2 * s.oqueue.contents.length +
        s.txeie.toNat + s.tcie.toNat < s.work
      unfold work
      omega
  | @expired t p hp asleep finite =>
      have hsum := callWork_update s.pending t (some { p with place := .woken .MSG_TIMEOUT })
      have htoGo : Place.asleep.toGo = 2 := rfl
      have htoGo' : (Place.woken .MSG_TIMEOUT).toGo = 1 := rfl
      rw [hp, Pending.work_some, Pending.work_place, asleep, htoGo, htoGo'] at hsum
      show callWork (Function.update s.pending t _) + 2 * s.oqueue.contents.length + s.txeie.toNat +
        s.tcie.toNat < s.work
      unfold work
      omega
  | @sent sr b q tcie hq flag alone =>
      have hlen := congrArg List.length hq.contents
      have hflag := toNat_mono flag
      rw [List.length_cons] at hlen
      show callWork s.pending + 2 * q.contents.length + s.txeie.toNat + tcie.toNat < s.work
      unfold work
      omega
  | @sentWaking sr b q tcie t ts p hq flag first hp asleep =>
      have hsum := callWork_update s.pending t (some { p with place := .woken .MSG_OK })
      have htoGo : Place.asleep.toGo = 2 := rfl
      have htoGo' : (Place.woken .MSG_OK).toGo = 3 := rfl
      have hlen := congrArg List.length hq.contents
      have hflag := toNat_mono flag
      rw [List.length_cons] at hlen
      rw [hp, Pending.work_some, Pending.work_place, asleep, htoGo, htoGo'] at hsum
      show callWork (Function.update s.pending t _) + 2 * q.contents.length + s.txeie.toNat +
        tcie.toNat < s.work
      unfold work
      omega
  | @quiet sr txeie tcie empty flags =>
      show callWork s.pending + 2 * s.oqueue.contents.length + txeie.toNat + tcie.toNat < s.work
      unfold work
      omega

/-- A run without a new call is no longer than the work it takes away. -/
theorem length_le_work {ms : List (OutMove T)} (h : s.Inv) (hms : ∀ m ∈ ms, m.isCall = false)
    (hr : run ms s = some s') : ms.length + s'.work ≤ s.work := by
  induction ms generalizing s with
  | nil =>
      cases hr
      exact (Nat.zero_add _).le
  | cons m ms ih =>
      obtain ⟨s₁, hs₁, hrest⟩ := Option.bind_eq_some_iff.mp hr
      have hstep := work_step (step_does h.sound hs₁) (hms m List.mem_cons_self)
      have hind := ih (h.step hs₁) (fun m' hm' => hms m' (List.mem_cons_of_mem m hm')) hrest
      rw [List.length_cons]
      omega

omit [Fintype T] in
/-- A thread that is not asleep can run. -/
theorem run_ne_none {t : T} {p : Pending} (hp : s.pending t = some p) (awake : p.place ≠ .asleep) :
    step (.run t) s ≠ none := by
  cases hplace : p.place with
  | running => simp [step, hp, hplace]
  | asleep => exact absurd hplace awake
  | woken m => cases m <;> simp [step, hp, hplace]

omit [Fintype T] in
/-- Where neither a thread nor an interrupt can move, nothing is left to do. -/
theorem drained_of_stuck (h : s.Inv) (hstuck : ∀ m : OutMove T, m.isCall = false →
    step m s = none) :
    (∀ t, s.pending t = none) ∧ s.oqueue.contents = [] := by
  have htxeie : s.txeie = false := by
    have hnone := hstuck (.interrupt .complete) rfl
    cases hx : s.txeie with
    | false => rfl
    | true => simp [step, hx, TxStatus.isTxe] at hnone
  have hnil : s.oqueue.contents = [] := by
    by_contra hne
    rw [h.sound.armed hne] at htxeie
    cases htxeie
  refine ⟨?_, hnil⟩
  intro t
  cases hp : s.pending t with
  | none => rfl
  | some p =>
      by_cases hplace : p.place = .asleep
      · -- The queue is empty, so the wake-ups that are owed include one that can be used.
        have hmem := (h.sound.line t).mpr ⟨p, hp, hplace⟩
        obtain ⟨ts, -, hcount, hts⟩ := h.served (List.ne_nil_of_mem hmem)
        have hcounter := OutputQueue.length_contents h.sound.wf
        rw [hnil, List.length_nil, Nat.zero_add] at hcounter
        have hpos : 0 < ts.length := by
          have hsize : SERIAL_BUFFERS_SIZE = 16 := rfl
          omega
        obtain ⟨u, hu⟩ := List.exists_mem_of_length_pos hpos
        obtain ⟨p', hp', hwoken⟩ := hts u hu
        exact absurd (hstuck (.run u) rfl)
          (run_ne_none hp' (by rw [hwoken]; exact Place.noConfusion))
      · exact absurd (hstuck (.run t) rfl) (run_ne_none hp hplace)

/-- From every reachable state, the moves of threads and interrupts come to an end
unless there is a new call. When none of them is possible any more, every call has
returned and every byte put is sent. -/
theorem output_drains {mem : Nat → UInt8} {s s' : SerialOut T} {ms : List (OutMove T)}
    (h : Reaches (init mem) s) (hms : ∀ m ∈ ms, m.isCall = false) (hr : run ms s = some s') :
    ms.length ≤ s.work ∧
      ((∀ m : OutMove T, m.isCall = false → step m s' = none) →
        s'.sent = s'.accepted.map Prod.snd ∧
          ∀ t, s'.pending t = none ∧ s'.bytesOf t = (s'.returned t).flatMap reported) := by
  obtain ⟨ms₀, hms₀⟩ := h
  have hinv := (inv_init mem).run hms₀
  have hinv' := hinv.run hr
  refine ⟨?_, fun hstuck => ?_⟩
  · have hle := length_le_work hinv hms hr
    omega
  · obtain ⟨hnone, hnil⟩ := drained_of_stuck hinv' hstuck
    have hfifo := hinv'.fifo
    rw [hnil, List.append_nil] at hfifo
    refine ⟨hfifo, fun t => ⟨hnone t, ?_⟩⟩
    rw [hinv'.own t, hnone t]
    exact List.append_nil _

/-- There are three threads. -/
instance : Fintype Tid := ⟨{.main, .serial, .mpu}, fun t => by cases t <;> decide⟩

/-- The two calls of `twoCalls` return and all is sent, in no more moves than there is
work. -/
theorem output_drains_two : ∃ s s' : SerialOut Tid,
    run sending s = some s' ∧ sending.length ≤ s.work ∧ s'.sent = s'.accepted.map Prod.snd := by
  have hrun : (run twoCalls (init fun _ => 0)).any (fun s => (run sending s).any fun s' =>
      decide ((∀ t, s'.pending t = none) ∧ s'.txeie = false ∧ s'.tcie = false)) = true := by
    decide
  obtain ⟨s, hs, hany⟩ := (Option.any_eq_true _ _).mp hrun
  obtain ⟨s', hs', hend⟩ := (Option.any_eq_true _ _).mp hany
  obtain ⟨hpending, htxeie, htcie⟩ := of_decide_eq_true hend
  have hstuck : ∀ m : OutMove Tid, m.isCall = false → step m s' = none := by
    intro m hm
    cases m with
    | call t c => cases hm
    | run t => simp [step, hpending t]
    | expire t => simp [step, hpending t]
    | interrupt sr => simp [step, htxeie, htcie]
  obtain ⟨hle, hdrained⟩ := output_drains ⟨twoCalls, hs⟩ (by decide) hs'
  exact ⟨s, s', hs', hle, (hdrained hstuck).1⟩

end SerialOut

end MotionTracking
