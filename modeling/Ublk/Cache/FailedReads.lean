import Ublk.Cache.Coherence
import Ublk.Cache.Invalidation
import Ublk.Cache.Provenance
import Ublk.Lib.SerialTogether

/-!
Chunks that cannot be read, under both handlers. Nothing of them gets into the cache or to the
handler below, and the client is told.
-/
namespace Ublk.Cache

open Shared Requests Words

/-- A byte that the handler below had at the start, or that a client wrote. -/
def Known (dev₀ : Addr → Byte) (ws : List (Range × (Nat → Byte))) (a : Nat) (v : Byte) : Prop :=
  v = dev₀ (0, a) ∨ ∃ w ∈ ws, w.1.off ≤ a ∧ a < w.1.off + w.1.len ∧ v = w.2 (a - w.1.off)

/-- What is cached, and what reads returned, is allowed. -/
structure Front.Shown (K : Nat → Byte → Prop) (sz : Nat) (x : Front) : Prop where
  cached : ∀ k d, x.cache.get k = some d → ∃ b, d = some b ∧ Allowed K sz k b
  returned : ∀ r ∈ x.reads, ∀ i, r.got i = true → K (r.off + i) (r.buf i)

/-- The client was told of a failure, or will be by its completer. -/
def Informed (t : Requests) (c : Nat) : Prop :=
  (t.req c).err ≠ 0 ∨ ∃ e, e ≠ 0 ∧ (t.req c).ret = some e

variable {sz n : Nat} {E : Env} {dev₀ : Addr → Byte} {K : Nat → Byte → Prop} {i c : Nat} {e : Int}
  {hit : Nat → Bool} {rg : Range} {b : Nat → Byte} {hn : 0 < n} {hsz : 0 < sz}

theorem shown_of_genuine {x : Front} (h : x.Genuine K sz) : x.Shown K sz := ⟨h.cached, h.reads⟩

/-- A submit that is accepted fails by completing with an error. -/
theorem done_of_accepts {o : Outcome} (ha : o.Accepts) (h : ¬ o.Succeeds) :
    ∃ e hit, o = .done e hit ∧ e ≠ 0 := by
  cases o with
  | reject e he => exact ha.elim
  | held => exact absurd trivial h
  | done e hit => exact ⟨e, hit, rfl, h⟩

theorem known_of_mem {ws : List (Range × (Nat → Byte))} (h : (rg, b) ∈ ws) (hi : i < rg.len) :
    Known dev₀ ws (rg.off + i) (b i) := by
  refine .inr ⟨(rg, b), h, Nat.le_add_right _ _, Nat.add_lt_add_left hi _, ?_⟩
  rw [Nat.add_sub_cancel_left]

namespace Rwi

variable {s t u : Rwi} {f : Forward} {l : Label}

structure Genuine (K : Nat → Byte → Prop) (sz : Nat) (s : Rwi) : Prop where
  front : s.front.Genuine K sz
  forwards : ∀ w ∈ s.forwards, Bearing K w.query

/-- What a client asks to write is allowed. -/
def Asks (K : Nat → Byte → Prop) : Label → Prop
  | .write r src => ∀ i < r.len, K (r.off + i) (src i)
  | _ => True

theorem genuine_complete (h : s.Genuine K sz) (hs : s.complete f = some t) : t.Genuine K sz := by
  obtain ⟨cache, hcache, hs⟩ := Option.bind_eq_some_iff.mp hs
  cases hs
  refine ⟨genuine_congr h.front rfl (fun k => ?_) (fun _ => id) rfl, h.forwards⟩
  dsimp only
  rw [FlatLru.get_invalidateRange hcache]
  split
  · exact .inl rfl
  · exact .inr rfl

theorem genuine_write (hb : ∀ i < rg.len, K (rg.off + i) (b i)) (h : s.Genuine K sz)
    (hs : s.write sz E rg b = some t) : t.Genuine K sz := by
  obtain ⟨last, v, -, -, hv, rfl⟩ := Rwi.write_cases hs
  have hbrings : Brings K ⟨0, rg.off, 0, rg.len⟩ (Query.writing b) := fun _ i hi => by
    rw [Nat.zero_add]
    exact hb i hi
  have hmark := @genuine_mark sz (fun a => (E.beh true s.front.disk.next).lands
    ⟨0, rg.off, 0, rg.len⟩ a) s.front _ K h.front (sourced_submit (E := E) h.front.below hbrings)
  suffices hgen : v.Genuine K sz from ⟨hgen.front, hgen.forwards⟩
  unfold Rwi.forward at hv
  split at hv
  · refine genuine_complete ?_ hv
    exact ⟨hmark, h.forwards⟩
  · cases hv
    refine ⟨hmark, fun w hw => ?_⟩
    obtain hw | hw := List.mem_append.mp hw
    · exact h.forwards w hw
    · cases List.mem_singleton.mp hw
      exact bearing_writing hbrings

theorem genuine_step (hsz : 0 < sz) (hE : ∀ i, (E.beh false i).Accepts) (ha : Asks K l)
    (h : s.Genuine K sz) (hs : s.step sz E l = some t) : t.Genuine K sz := by
  cases l with
  | read r buf =>
    cases hs
    exact ⟨genuine_read hsz hE h.front, h.forwards⟩
  | write r src => exact genuine_write ha h hs
  | sample i hit =>
    obtain ⟨y, hy, rfl⟩ := Option.map_eq_some_iff.mp hs
    exact ⟨genuine_sample h.front hy, h.forwards⟩
  | apply i hit =>
    obtain ⟨w, hw, hs⟩ := Option.bind_eq_some_iff.mp hs
    obtain ⟨⟨q, dev⟩, hq, hs⟩ := Option.bind_eq_some_iff.mp hs
    cases hs
    have hbear := h.forwards w (List.mem_of_getElem? hw)
    have hmark := @genuine_mark sz (fun a => w.query.ops.any (·.lands hit a)) s.front
      { s.front.disk with dev } K h.front (sourced_effect h.front.below hbear hq)
    refine ⟨hmark, fun v hv => ?_⟩
    obtain hv | rfl := List.mem_or_eq_of_mem_set hv
    · exact h.forwards v hv
    · exact bearing_effect hbear hq
  | settle i e =>
    obtain ⟨z, hz, rfl⟩ := Option.map_eq_some_iff.mp hs
    exact ⟨genuine_settle h.front hz, h.forwards⟩
  | complete i e =>
    obtain ⟨w, -, hs⟩ := Option.bind_eq_some_iff.mp hs
    obtain ⟨q, -, hs⟩ := Option.bind_eq_some_iff.mp hs
    refine genuine_complete (s := { s with forwards := s.forwards.eraseIdx i }) ⟨h.front, ?_⟩ hs
    exact fun v hv => h.forwards v (List.mem_of_mem_eraseIdx hv)

theorem grows_complete (hs : s.complete f = some t) : s.reqs.Grows t.reqs := by
  obtain ⟨cache, -, hs⟩ := Option.bind_eq_some_iff.mp hs
  cases hs
  exact grows_trans grows_setErr grows_drop

theorem grows_write (hs : s.write sz E rg b = some t) : s.reqs.Grows t.reqs := by
  obtain ⟨last, v, -, -, hv, rfl⟩ := Rwi.write_cases hs
  have hmade : s.reqs.Grows (s.reqs.create.share s.reqs.count) :=
    grows_trans grows_create grows_share
  refine grows_trans hmade (grows_trans ?_ grows_returned)
  unfold Rwi.forward at hv
  split at hv
  · exact grows_complete hv
  · cases hv
    exact grows_refl

theorem grows_step (hs : s.step sz E l = some t) : s.reqs.Grows t.reqs := by
  cases l with
  | read r buf =>
    cases hs
    exact grows_read
  | write r src => exact grows_write hs
  | sample i hit =>
    obtain ⟨y, -, rfl⟩ := Option.map_eq_some_iff.mp hs
    exact grows_refl
  | apply i hit =>
    obtain ⟨w, -, hs⟩ := Option.bind_eq_some_iff.mp hs
    obtain ⟨q, -, hs⟩ := Option.bind_eq_some_iff.mp hs
    cases hs
    exact grows_refl
  | settle i e =>
    obtain ⟨z, hz, rfl⟩ := Option.map_eq_some_iff.mp hs
    exact grows_settle hz
  | complete i e =>
    obtain ⟨w, -, hs⟩ := Option.bind_eq_some_iff.mp hs
    obtain ⟨q, -, hs⟩ := Option.bind_eq_some_iff.mp hs
    exact grows_complete (s := { s with forwards := s.forwards.eraseIdx i }) hs

/-- A request that has an error keeps one. -/
theorem err_of_run {ok : Rwi → Label → Prop} (h : Lts.Run (Rwi.step sz E) ok t u)
    (hc : c < t.reqs.count) (he : (t.reqs.req c).err ≠ 0) : (u.reqs.req c).err ≠ 0 := by
  have hrun : t.reqs.Grows u.reqs :=
    Lts.run_invariant (I := fun u => t.reqs.Grows u.reqs) h grows_refl
      fun _ _ _ hg _ hs => grows_trans hg (grows_step hs)
  exact hrun.2 c hc he

/-- The chunks being read and the writes under way hold their requests. -/
def Held (s : Rwi) : Prop :=
  s.reqs.Balanced (fun d => (s.forwards.map Forward.cid).count d + fillsOf d s.front) none

theorem held_complete {g : Nat → Nat} {o : Option Nat} (hs : s.complete f = some t)
    (h : s.reqs.Balanced (fun d => g d + if d = f.cid then 1 else 0) o) :
    t.reqs.Balanced g o ∧ t.forwards = s.forwards ∧ t.front.fills = s.front.fills := by
  obtain ⟨cache, -, hs⟩ := Option.bind_eq_some_iff.mp hs
  cases hs
  exact ⟨balanced_drop (balanced_setErr h) fun _ => rfl, rfl, rfl⟩

theorem held_write (h : s.Held) (hs : s.write sz E rg b = some t) : t.Held := by
  obtain ⟨last, v, -, -, hv, rfl⟩ := Rwi.write_cases hs
  have hshare := balanced_share (balanced_create h fun _ => rfl) (c := s.reqs.count) (by simp)
    fun _ => rfl
  have hmark : ∀ (d : Nat) (hit : Nat → Bool) (disk : Disk),
      fillsOf d ({ s.front with disk }.mark sz hit) = fillsOf d s.front := by
    intro d hit disk
    simp [fillsOf, Front.mark, Function.comp_def]
  have hforward : v.reqs.Balanced (fun d => ((v.forwards.map Forward.cid).count d +
      fillsOf d v.front) + if d = s.reqs.count then 1 else 0) (some s.reqs.count) := by
    unfold Rwi.forward at hv
    split at hv
    · obtain ⟨hbal, hforwards, hfills⟩ := held_complete hv hshare
      refine Eq.mp ?_ hbal
      congr 1
      funext d
      rw [hforwards, fillsOf, fillsOf, hfills]
      have hd := hmark d
      unfold fillsOf at hd
      rw [hd]
    · cases hv
      refine Eq.mp ?_ hshare
      congr 1
      funext d
      dsimp only
      rw [hmark d, List.map_append, List.count_append, List.map_cons, List.map_nil,
        List.count_singleton]
      simp only [beq_iff_eq, eq_comm (a := s.reqs.count)]
      omega
  exact balanced_returned hforward fun _ => rfl

theorem held_step (h : s.Held) (hs : s.step sz E l = some t) : t.Held := by
  cases l with
  | read r buf =>
    cases hs
    exact balanced_read h
  | write r src => exact held_write h hs
  | sample i hit =>
    obtain ⟨y, hy, rfl⟩ := Option.map_eq_some_iff.mp hs
    unfold Held fillsOf
    dsimp only
    rw [fills_sample hy]
    exact h
  | apply i hit =>
    obtain ⟨w, hw, hs⟩ := Option.bind_eq_some_iff.mp hs
    obtain ⟨q, -, hs⟩ := Option.bind_eq_some_iff.mp hs
    cases hs
    refine Eq.mp ?_ h
    unfold Held
    congr 1
    funext d
    have hcids : (s.forwards.set i { w with query := q.1 }).map Forward.cid =
        s.forwards.map Forward.cid := by
      obtain ⟨hlt, rfl⟩ := List.getElem?_eq_some_iff.mp hw
      rw [List.map_set]
      dsimp only
      rw [← List.getElem_map Forward.cid (h := by simpa using hlt), List.set_getElem_self]
    dsimp only
    rw [hcids]
    simp [fillsOf, Front.mark, Function.comp_def]
  | settle i e =>
    obtain ⟨z, hz, rfl⟩ := Option.map_eq_some_iff.mp hs
    exact balanced_settle hz h
  | complete i e =>
    obtain ⟨w, hw, hs⟩ := Option.bind_eq_some_iff.mp hs
    obtain ⟨q, -, hs⟩ := Option.bind_eq_some_iff.mp hs
    obtain ⟨hlt, rfl⟩ := List.getElem?_eq_some_iff.mp hw
    have hperm := (List.getElem_cons_eraseIdx_perm hlt).map Forward.cid
    obtain ⟨hbal, hforwards, hfills⟩ := held_complete (g := fun d =>
      ((s.forwards.eraseIdx i).map Forward.cid).count d + fillsOf d s.front) hs (Eq.mp (by
        unfold Held
        congr 1
        funext d
        rw [← hperm.count_eq d, List.map_cons, List.count_cons]
        simp only [beq_iff_eq, eq_comm (b := d)]
        omega) h)
    refine Eq.mp ?_ hbal
    unfold Held
    congr 1
    funext d
    rw [hforwards, fillsOf, fillsOf, hfills]

/-- What a label asks to write. -/
def asked : Label → Option (Range × (Nat → Byte))
  | .write r src => some (r, src)
  | _ => none

theorem written_complete (hs : s.complete f = some t) : t.written = s.written := by
  obtain ⟨cache, -, hs⟩ := Option.bind_eq_some_iff.mp hs
  cases hs
  rfl

theorem written_write (hs : s.write sz E rg b = some t) : t.written = s.written ++ [(rg, b)] := by
  obtain ⟨last, v, -, -, hv, rfl⟩ := Rwi.write_cases hs
  unfold Rwi.forward at hv
  split at hv
  · exact written_complete hv
  · cases hv
    rfl

/-- Writes are put on record as they come. -/
theorem recorded_step (s : Rwi) (l : Label) (t : Rwi) (hs : s.step sz E l = some t) :
    (∀ w ∈ s.written, w ∈ t.written) ∧ ∀ w, asked l = some w → w ∈ t.written := by
  have hsame : t.written = s.written → (∀ w ∈ s.written, w ∈ t.written) ∧
      ∀ w, (none : Option (Range × (Nat → Byte))) = some w → w ∈ t.written :=
    fun he => ⟨fun w hw => he ▸ hw, fun w hw => nomatch hw⟩
  cases l with
  | read r buf =>
    cases hs
    exact hsame rfl
  | write r src =>
    rw [written_write hs]
    refine ⟨fun w hw => List.mem_append_left _ hw, fun w hw => ?_⟩
    cases hw
    exact List.mem_append_right _ (.head _)
  | sample i hit =>
    obtain ⟨y, -, rfl⟩ := Option.map_eq_some_iff.mp hs
    exact hsame rfl
  | apply i hit =>
    obtain ⟨w, -, hs⟩ := Option.bind_eq_some_iff.mp hs
    obtain ⟨q, -, hs⟩ := Option.bind_eq_some_iff.mp hs
    cases hs
    exact hsame rfl
  | settle i e =>
    obtain ⟨z, -, rfl⟩ := Option.map_eq_some_iff.mp hs
    exact hsame rfl
  | complete i e =>
    obtain ⟨w, -, hs⟩ := Option.bind_eq_some_iff.mp hs
    obtain ⟨q, -, hs⟩ := Option.bind_eq_some_iff.mp hs
    have hw := written_complete hs
    exact hsame hw

/-- What becomes of chunks that cannot be read. What is cached and what reads returned was below at
the start or came from a client. A chunk that fails, later or at once, leaves the cache and the
handler below alone. The client of its read, whose completer has not run before, is told. -/
structure KeptOut (sz : Nat) (E : Env) (dev₀ : Addr → Byte) (s : Rwi) : Prop where
  shown : s.front.Shown (Known dev₀ s.written) sz
  later : ∀ i e f t, e ≠ 0 → s.front.fills[i]? = some f → s.step sz E (.settle i e) = some t →
    t.front.cache = s.front.cache ∧ t.front.disk = s.front.disk ∧
      (s.reqs.req f.cid).runs = 0 ∧
      ∀ u, Lts.Run (Rwi.step sz E) (fun _ _ => True) t u → Informed u.reqs f.cid
  atOnce : ∀ r buf t, s.step sz E (.read r buf) = some t → Brought sz s.front t.front ∧
    ∀ m, s.front.disk.next ≤ m → m < t.front.disk.next → ¬ (E.beh false m).Succeeds →
      ∀ u, Lts.Run (Rwi.step sz E) (fun _ _ => True) t u → Informed u.reqs s.reqs.count

theorem known_of_reached (hE : ∀ i, (E.beh false i).Accepts)
    (h : Rwi.Reached E n sz hn hsz dev₀ s) : s.Genuine (Known dev₀ s.written) sz := by
  have hrun := Lts.run_recorded recorded_step h
  refine Lts.run_invariant hrun ⟨⟨fun a => .inl rfl, fun k d hk => ?_, ?_, ?_⟩, ?_⟩
    fun a l b ha hl hs => genuine_step hsz hE ?_ ha hs
  · cases hk
  · simp [Rwi.initial]
  · simp [Rwi.initial]
  · simp [Rwi.initial]
  · cases l with
    | write r src => exact fun i hi => known_of_mem (hl _ rfl) hi
    | _ => trivial

theorem keptOut_of_reached (hE : ∀ i, (E.beh false i).Accepts)
    (h : Rwi.Reached E n sz hn hsz dev₀ s) : s.KeptOut sz E dev₀ := by
  have hgen := known_of_reached hE h
  have hheld : s.Held := by
    refine Lts.run_invariant h ?_ fun _ _ _ hh _ hs => held_step hh hs
    exact Eq.mp (by unfold Held; congr 1) Requests.balanced_empty
  refine ⟨shown_of_genuine hgen.front, fun i e f t he hf hs => ?_, fun r buf t hs => ?_⟩
  · obtain ⟨z, hz, rfl⟩ := Option.map_eq_some_iff.mp hs
    obtain ⟨hcache, hdisk, herr⟩ := failed_settle hf hz he
    have hpos : 0 < (s.forwards.map Forward.cid).count f.cid + fillsOf f.cid s.front := by
      have hmem := List.mem_map_of_mem (f := Fill.cid) (List.mem_of_getElem? hf)
      have := List.count_pos_iff.mpr hmem
      unfold fillsOf
      omega
    have hlt : f.cid < s.reqs.count := by
      by_contra hge
      have := hheld.beyond f.cid (by omega)
      omega
    refine ⟨hcache, hdisk, ?_, fun u hu => ?_⟩
    · rw [hheld.runs f.cid hlt, if_neg (by omega)]
    · have hgrows := grows_settle hz
      exact .inl (err_of_run hu (Nat.lt_of_lt_of_le hlt hgrows.1) herr)
  · cases hs
    refine ⟨brought_read hE, fun m hm hlt hbad u hu => ?_⟩
    obtain ⟨e, hit, hb, he⟩ := done_of_accepts (hE m) hbad
    exact .inl (err_of_run hu count_read (err_read hE hm hlt hb he))

end Rwi

end Ublk.Cache
