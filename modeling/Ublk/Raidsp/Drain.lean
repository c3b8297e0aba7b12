import Ublk.Lib.SerialDrain
import Ublk.Progress
import Ublk.Raidsp.Accounting
import Ublk.Raidsp.Restart

/-!
The acceptor comes to rest. A sub-write goes through at most three rounds of subqueries, and one that
waits for its stripe is started when the one at work on it ends.
-/
namespace Ublk.Raidsp

open Shared Serial Acceptor

variable {G : Geometry} {E : Env} {dev₀ : Addr → Byte} {w w' : SubWrite} {x x' : Inner} {r : Role}
  {q : Query} {s : State SubWrite Inner} {parity : Nat → Byte}

/-- The subqueries that write the strips of a slice and its parity. -/
def strips (G : Geometry) (v : Slice) : Nat :=
  cost (G.dataWrite v.stripe v.off v.size) + cost (G.parityWrite v.stripe 0 G.stripSz)

/-- The subqueries that are made at most after the last one of a query. -/
def sequel (G : Geometry) (v : Slice) : Role → Nat
  | .rqd => cost (G.parityRead v.stripe G.stripSz) + strips G v
  | .rpq => strips G v
  | _ => 0

/-- What a query and its sequel have left to do. -/
def ahead (G : Geometry) (v : Slice) (r : Role) (q : Query) : Nat :=
  q.left + if q.ops = [] then 0 else sequel G v r

namespace SubWrite

/-- What is left to do for a sub-write. -/
def left (G : Geometry) (w : SubWrite) : Nat :=
  ahead G w.toSlice .rqd (w.query .rqd) + ahead G w.toSlice .rpq (w.query .rpq) +
    ahead G w.toSlice .wqd (w.query .wqd) + ahead G w.toSlice .wqp (w.query .wqp)

end SubWrite

theorem left_congr (hq : w'.query = w.query) (hs : w'.toSlice = w.toSlice) :
    w'.left G = w.left G := by
  rw [SubWrite.left, SubWrite.left, hq, hs]

theorem left_set : (w.set r q).left G + ahead G w.toSlice r (w.query r) =
    w.left G + ahead G w.toSlice r q := by
  cases r <;> simp [SubWrite.left, SubWrite.set] <;> omega

/-- A query that is over has nothing left to do. -/
theorem ahead_of_ended {v : Slice} (h : q.ops = []) : ahead G v r q = 0 := by
  simp [ahead, h, Query.left_eq_zero h]

theorem ahead_le {v : Slice} : ahead G v r q ≤ q.left + sequel G v r := by
  unfold ahead
  split <;> omega

theorem left_set_le : (w.set r q).left G ≤ w.left G + ahead G w.toSlice r q := by
  have := @left_set G w r q
  omega

/-- A query that goes on writes no more than its subqueries. -/
theorem left_writing {buf : Nat → Byte} {ss : List Sub} {d : Disk} :
    ((Query.writing buf).submitAll E ss d).2.1.left ≤ cost ss := by
  have := @Query.left_submitAll E (Query.writing buf) ss d
  rwa [Query.left_eq_zero (q := .writing buf) rfl, Nat.zero_add] at this

theorem left_backendWrite :
    (backendWrite G E w parity x).2.1.left G ≤ w.left G + strips G w.toSlice := by
  have hdata := @left_writing E w.src (G.dataWrite w.stripe w.off w.size) x.disk
  have hparity : (if ((Query.writing w.src).submitAll E (G.dataWrite w.stripe w.off w.size)
      x.disk).1 = 0 then (Query.writing parity).submitAll E (G.parityWrite w.stripe 0 G.stripSz)
        ((Query.writing w.src).submitAll E (G.dataWrite w.stripe w.off w.size) x.disk).2.2
      else (((Query.writing w.src).submitAll E (G.dataWrite w.stripe w.off w.size) x.disk).1,
        Query.writing parity, ((Query.writing w.src).submitAll E
          (G.dataWrite w.stripe w.off w.size) x.disk).2.2)).2.1.left ≤
      cost (G.parityWrite w.stripe 0 G.stripSz) := by
    split
    · exact left_writing
    · exact Nat.zero_le _
  unfold backendWrite
  dsimp only
  generalize ((Query.writing w.src).submitAll E (G.dataWrite w.stripe w.off w.size) x.disk) = wqd
    at hdata hparity ⊢
  generalize (if wqd.1 = 0 then (Query.writing parity).submitAll E
    (G.parityWrite w.stripe 0 G.stripSz) wqd.2.2 else (wqd.1, Query.writing parity, wqd.2.2)) = wqp
    at hparity ⊢
  have hfirst := @left_set_le G w .wqd wqd.2.1
  have hlast := @left_set_le G (w.set .wqd wqd.2.1) .wqp wqp.2.1
  have hwqd := @ahead_le G .wqd wqd.2.1 w.toSlice
  have hwqp := @ahead_le G .wqp wqp.2.1 w.toSlice
  rw [SubWrite.toSlice_set] at hlast
  simp only [sequel, Nat.add_zero] at hwqd hwqp
  unfold strips
  omega

theorem left_guard {r r' : Role} : (combinedCompleterGuard r r' w x).1.left G = w.left G :=
  left_congr (by simp [combinedCompleterGuard]) (slice_of_request (stays_guard (G := G)).request)

theorem left_writeDone : (writeDone G r w x).1.left G = w.left G :=
  left_congr query_writeDone.1 (slice_of_request stays_writeDone.request)

theorem left_whenIdle_writeDone {s : SubWrite × Inner} :
    (whenIdle r (writeDone G r) s).1.left G = s.1.left G := by
  unfold whenIdle
  split
  · exact left_writeDone
  · rfl

theorem left_stripeIncoherentParityWrite :
    (stripeIncoherentParityWrite G E w parity x).2.1.left G ≤ w.left G + strips G w.toSlice := by
  obtain ⟨r, r', -, -, -, he⟩ := stripeIncoherentParityWrite_eq G E w parity x
  rw [he]
  dsimp only
  split
  · rw [left_guard]
    exact left_backendWrite
  · exact left_backendWrite

theorem left_stripeCoherentParityWrite :
    (stripeCoherentParityWrite G E w parity x).2.1.left G ≤ w.left G + strips G w.toSlice := by
  unfold stripeCoherentParityWrite
  dsimp only
  rw [left_whenIdle_writeDone, left_whenIdle_writeDone]
  exact left_backendWrite

theorem left_setErr {e : Int} : (w.setErr e).left G = w.left G := left_congr (by simp) (by simp)

theorem left_rpqDone : (rpqDone G E w x).1.left G ≤ w.left G + strips G w.toSlice := by
  unfold rpqDone
  dsimp only
  split
  · exact left_stripeCoherentParityWrite
  · rw [left_setErr]
    omega

theorem left_submitRead {buf : Nat → Byte} {ss : List Sub} :
    (submitRead E r buf ss w x).2.1.left G ≤ w.left G + (cost ss + sequel G w.toSlice r) ∧
      ((submitRead E r buf ss w x).2.1.Idle r →
        (submitRead E r buf ss w x).2.1.left G ≤ w.left G) := by
  have hread := @Query.left_submitAll E (.read buf) ss x.disk
  rw [Query.left_eq_zero (q := .read buf) rfl, Nat.zero_add] at hread
  have hle := @left_set_le G w r ((Query.read buf).submitAll E ss x.disk).2.1
  constructor
  · have hmost := @ahead_le G r ((Query.read buf).submitAll E ss x.disk).2.1 w.toSlice
    exact hle.trans (by omega)
  · intro hi
    rw [ahead_of_ended (SubWrite.idle_set_self.mp hi)] at hle
    exact hle

theorem left_rqdDone : (rqdDone G E w x).1.left G ≤ w.left G + sequel G w.toSlice .rqd := by
  unfold rqdDone
  dsimp only
  split
  · split
    · rw [left_setErr]
      obtain ⟨hle, hidle⟩ := @left_submitRead G E w x .rpq
        (fun j => E.junk w.id (G.stripeDataSz + j)) (G.parityRead w.stripe G.stripSz)
      unfold whenIdle
      split
      · have hdone := @left_rpqDone G E (submitRead E .rpq
          (fun j => E.junk w.id (G.stripeDataSz + j)) (G.parityRead w.stripe G.stripSz) w x).2.1
          (submitRead E .rpq (fun j => E.junk w.id (G.stripeDataSz + j))
            (G.parityRead w.stripe G.stripSz) w x).2.2
        have hkeep := hidle ‹_›
        rw [slice_of_request (stays_submitRead (G := G)).request] at hdone
        simp only [sequel]
        omega
      · exact hle
    · rw [left_setErr]
      have := @left_stripeIncoherentParityWrite G E w x
        (parityRenew (overlay (w.query .rqd).buf w.off w.size w.src) G.stripeDataSz G.stripSz)
      simp only [sequel]
      omega
  · rw [left_setErr]
    omega

/-- The completer of a query makes its sequel at most. -/
theorem left_queryDone : (queryDone G E r w x).1.left G ≤ w.left G + sequel G w.toSlice r := by
  cases r with
  | rqd => exact left_rqdDone
  | rpq => exact left_rpqDone
  | wqd => exact left_writeDone.le
  | wqp => exact left_writeDone.le

/-- An effect that changes something, or the end of a subquery. -/
def Act.Moves (w : SubWrite) : Act → Prop
  | .effect r k hit => (w.query r).Gains k hit
  | .settle _ _ _ => True

theorem left_react {a : Act} (ha : a.Moves w) (h : react G E a w x = some (w', x')) :
    w'.left G < w.left G := by
  cases a with
  | effect r k hit =>
    obtain ⟨⟨q, dev⟩, hq, he⟩ := Option.map_eq_some_iff.mp h
    cases he
    have hlt := Query.left_effect ha hq
    have hset := @left_set G w r q
    have hends := (Query.effect_keeps hq).2.2.2.2.1
    unfold ahead at hset
    simp only [hends] at hset
    dsimp only
    omega
  | settle r k e =>
    obtain ⟨q, hq, he⟩ := Option.map_eq_some_iff.mp h
    obtain rfl : (whenIdle r (queryDone G E r) (w.set r q, x)).1 = w' := congrArg Prod.fst he
    have hlt := Query.left_settle hq
    have hset := @left_set G w r q
    have hbusy : (w.query r).ops ≠ [] := (Query.settle_keeps hq).1
    rw [ahead, if_neg hbusy] at hset
    unfold whenIdle
    split
    · rename_i hi
      have hdone := @left_queryDone G E (w.set r q) x r
      rw [ahead_of_ended (SubWrite.idle_set_self.mp hi)] at hset
      rw [SubWrite.toSlice_set] at hdone
      dsimp only
      omega
    · have hmost := @ahead_le G r q w.toSlice
      dsimp only
      omega

/-- The reads of clients in flight. -/
def Inner.left (x : Inner) : Nat := (x.reads.map fun rd => rd.query.left).sum

def Beside.Moves (x : Inner) : Beside → Prop
  | .read _ _ _ => False
  | .effect i k hit => ∃ rd, x.reads[i]? = some rd ∧ rd.query.Gains k hit
  | .settle _ _ _ => True

/-- The reads that are kept have something in flight. -/
def Inner.Reading (x : Inner) : Prop := ∀ rd ∈ x.reads, rd.query.ops ≠ []

theorem left_beside {b : Beside} {t t' : Requests} (hb : b.Moves x)
    (h : beside G E b x t = some (x', t')) : x'.left < x.left := by
  cases b with
  | read off size hpos => exact hb.elim
  | effect i k hit =>
    obtain ⟨rd, hrd, h⟩ := Option.bind_eq_some_iff.mp h
    obtain ⟨⟨q, dev⟩, hq, h⟩ := Option.map_eq_some_iff.mp h
    cases h
    obtain ⟨_, hrd', hg⟩ := hb
    obtain rfl := Option.some.inj (hrd.symm.trans hrd')
    have hlt := Query.left_effect hg hq
    have hsum := sum_set (f := fun rd => rd.query.left) (b := { rd with query := q }) hrd
    unfold Inner.left
    dsimp only at hsum ⊢
    omega
  | settle i k e =>
    obtain ⟨rd, hrd, h⟩ := Option.bind_eq_some_iff.mp h
    obtain ⟨q, hq, h⟩ := Option.map_eq_some_iff.mp h
    have hlt := Query.left_settle hq
    split at h
    · cases h
      have hsum := sum_eraseIdx (f := fun rd : ClientRead => rd.query.left) hrd
      unfold Inner.left
      dsimp only at hsum ⊢
      omega
    · cases h
      have hsum := sum_set (f := fun rd => rd.query.left) (b := { rd with query := q }) hrd
      unfold Inner.left
      dsimp only at hsum ⊢
      omega

theorem reading_of_rest (h : x' = { x with disk := x'.disk, coh := x'.coh }) (hx : x.Reading) :
    x'.Reading := by
  rw [h]
  exact hx

theorem reading_rule : Kept (acceptor G E) (fun _ _ => True) Inner.Reading where
  split _ _ _ h := h
  start _ _ h := reading_of_rest stays_process.rest h
  react _ _ _ _ _ hr h := reading_of_rest (react_keeps hr).2 h
  enter _ _ h := h
  leave _ _ h := h
  aside b x t x' t' _ hs h := by
    cases b with
    | read off size hpos =>
      simp only [acceptor, beside, Option.some.injEq, Prod.mk.injEq] at hs
      obtain ⟨rfl, -⟩ := hs
      split
      · exact h
      · rename_i hops
        intro rd hrd
        obtain hrd | hrd := List.mem_append.mp hrd
        · exact h rd hrd
        · exact List.mem_singleton.mp hrd ▸ hops
    | effect i k hit =>
      obtain ⟨rd, hrd, hs⟩ := Option.bind_eq_some_iff.mp hs
      obtain ⟨⟨q, dev⟩, hq, hs⟩ := Option.map_eq_some_iff.mp hs
      cases hs
      intro y hy
      obtain hy | rfl := List.mem_or_eq_of_mem_set hy
      · exact h y hy
      · exact fun he => h rd (List.mem_of_getElem? hrd) ((Query.effect_keeps hq).2.2.2.2.1.mp he)
    | settle i k e =>
      obtain ⟨rd, hrd, hs⟩ := Option.bind_eq_some_iff.mp hs
      obtain ⟨q, hq, hs⟩ := Option.map_eq_some_iff.mp hs
      split at hs
      · cases hs
        exact fun y hy => h y (List.mem_of_mem_eraseIdx hy)
      · rename_i hops
        cases hs
        intro y hy
        obtain hy | rfl := List.mem_or_eq_of_mem_set hy
        · exact h y hy
        · exact hops

theorem acceptor_draining : Draining (acceptor G E) readsOf Inner.Reading (SubWrite.left G) Inner.left
    (fun a w => a.Moves w) fun b x => b.Moves x where
  react _ _ _ _ _ ha h := left_react ha h
  busy w x hb := by
    have hn : ¬ ∀ r, w.Idle r := fun h => by
      rw [show (acceptor G E).busy w = w.busy from rfl, SubWrite.not_busy.mpr h] at hb
      cases hb
    obtain ⟨r, hr⟩ := not_forall.mp hn
    refine ⟨.settle r 0 5, trivial, fun h => ?_⟩
    exact Query.settle_ne_none hr (Option.map_eq_none_iff.mp h)
  aside _ _ _ _ _ hb h := left_beside hb h
  kept x t c hx hc := by
    obtain ⟨rd, hrd, -⟩ := List.countP_pos_iff.mp (Nat.pos_of_ne_zero hc)
    obtain ⟨i, hlt, rfl⟩ := List.mem_iff_getElem.mp hrd
    refine ⟨.settle i 0 5, trivial, fun h => Query.settle_ne_none (hx _ hrd) ?_⟩
    simpa [acceptor, beside, List.getElem?_eq_getElem hlt] using h

end Ublk.Raidsp
