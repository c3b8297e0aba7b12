import Ublk.Cache.Faultless
import Ublk.Cache.OneForward

/-!
One write by itself through `RWTHandler`, with nothing that fails below: the handler below and the
cache get its bytes.
-/
namespace Ublk.Cache.Rwt

open Shared Requests Serial Words

variable {sz : Nat} {E : Env} {dev₀ : Addr → Byte} {w : ChunkWrite} {v : Slice} {x x' : Inner}
  {k j : Nat} {a : Act} {s t : State} {l : Label} {r : ChunkWrite × Inner} {rg : Range}
  {src : Nat → Byte} {y : Front}

/-- A step of the parts of a write. -/
def OfParts : Label → Prop
  | .tick => True
  | .act _ _ => True
  | _ => False

/-- What the client of request 0 is told when the call that makes its parts returns. -/
def Issued (issue : Option (Issue ChunkWrite)) (t : Requests) : Prop :=
  match issue with
  | some q => q.client = 0 ∧ q.ret = 0
  | none => (t.req 0).ret = some 0

/-- Write 0 is under way and nothing else. -/
structure Course (sz : Nat) (E : Env) (dev₀ : Addr → Byte) (rg : Range) (src : Nat → Byte)
    (s : State) : Prop where
  disciplined : Disciplined (machine sz E) s
  owned : Owned (chunks sz dev₀) (machine sz E) s
  failing : s.inner.failing = failures s.frames
  counted : Counted (machine sz E) (fun c x => fillsOf c x.front) s
  traced : (s.inner.made sz : Multiset Slice) = tags (fun w => w.toSlice) Inner.done s
  made : s.inner.made sz = slices sz 0 rg src
  jobs : Jobs (machine sz E) Inner.done Flawless Flawless Flawless s
  alone : s.inner.front.fills = []
  unfailing : Unfailing s.reqs
  issued : Issued s.issue s.reqs
  there : 0 < s.reqs.count

theorem ret_place {c : Nat} :
    (((machine sz E).place w s).reqs.req c).ret = (s.reqs.req c).ret := by
  unfold Machine.place
  split
  · rfl
  · simp

theorem issued_step (hE : ∀ c i, (E.beh c i).Accepts) (hp : OfParts l) (h : Issued s.issue s.reqs)
    (hs : (machine sz E).step s l = some t) : Issued t.issue t.reqs := by
  have hret : ∀ {u : Requests}, (∀ c, (u.req c).ret = (s.reqs.req c).ret) → Issued s.issue u := by
    intro u hu
    unfold Issued at h ⊢
    split
    · simp_all
    · simp_all
  cases Machine.step_sound hs with
  | arrive hq => exact hp.elim
  | aside hq hr => exact hp.elim
  | restart hd hf hl hp' =>
    rw [Machine.issue_place]
    exact hret fun c => ret_place
  | launch hd hf hi ht =>
    rw [Machine.issue_place]
    rw [hi] at h
    exact ⟨h.1, process_zero hE⟩
  | act hq hj' hr =>
    rw [Machine.issue_place]
    exact hret fun c => ret_place
  | back hd hf hl => exact hret fun c => by simp [Machine.back]
  | wait hd hf hi ht =>
    rw [hi] at h
    exact ⟨h.1, rfl⟩
  | overrun hd hf hi ht =>
    rw [hi] at h
    exact ⟨h.1, rfl⟩
  | conclude hd hf hi hr =>
    rw [hi] at h
    obtain ⟨hc, he⟩ := h
    simp only [State.conclude, hc, he]
    exact ret_returned
  | _ => exact h

theorem fills_of_rests (hr : Rests w x r) (h : x.front.fills = []) : r.2.front.fills = [] :=
  List.map_eq_nil_iff.mp (hr.fills.trans (by rw [h]; rfl))

/-- No read comes in and no chunk for one is in flight. -/
theorem fills_rule : Kept (machine sz E) (fun _ _ => False) fun x => x.front.fills = [] where
  split _ _ _ h := h
  start _ _ h := fills_of_rests rests_process h
  react _ _ _ _ _ hr h := fills_of_rests (rests_react hr) h
  enter _ _ h := h
  leave w x h := by
    dsimp only [machine]
    split
    · exact h
    · exact h
  aside _ _ _ _ _ hf := hf.elim

theorem there_rule : KeptBoth (machine sz E) (fun _ _ => False) fun _ q => 0 < q.count where
  grows _ _ _ h hg := Nat.lt_of_lt_of_le h hg.1
  split _ _ _ _ h := h
  start _ _ _ h := h
  react _ _ _ _ _ _ _ h := h
  enter _ _ _ h := h
  leave _ _ _ h := h
  aside _ _ _ _ _ hf := hf.elim

theorem no_aside (hp : OfParts l) (b : Beside) (z : Inner × Requests) (hb : l = .aside b)
    (_ : aside sz E b s.inner s.reqs = some z) : Unfailing z.2 := by
  subst hb
  exact hp.elim

theorem not_arrive (hp : OfParts l) : ∀ r, l ≠ .arrive r := by
  rintro r rfl
  exact hp

/-- What completes in a step completes without an error. -/
def Smooth (s : State) (l : Label) : Prop := Guarded (fun a _ => a.Succeeds) (fun _ _ => False) s l

theorem course_step (hsz : 0 < sz) (hE : ∀ c i, (E.beh c i).Succeeds) (hp : OfParts l)
    (hok : Smooth s l) (h : Course sz E dev₀ rg src s) (hs : (machine sz E).step s l = some t) :
    Course sz E dev₀ rg src t := by
  have hacc : ∀ c i, (E.beh c i).Accepts := fun c i => accepts_of_succeeds (hE c i)
  have hr : Restarts (machine sz E) s l := restarts_of_accepts hacc
  have hcovers : Covers (machine sz E) s l := fun r hl => absurd hl (not_arrive hp r)
  have hdisciplined := disciplined_step machine_fixed hcovers h.disciplined hr hs
  have hguard : Guarded (fun _ _ => True) (Current sz E) s l := by
    cases l with
    | aside b => exact hp.elim
    | act i a => exact fun _ _ => trivial
    | _ => trivial
  obtain ⟨lost, htraced, hnone⟩ := traced_step machine_tracing
    (show _ = _ + (0 : Multiset Slice) by rw [add_zero]; exact h.traced) hs
  rw [hnone (fun _ _ => process_zero hacc) hdisciplined.alive, add_zero] at htraced
  exact ⟨hdisciplined,
    owned_step machine_fixed (chunks_sound hsz hacc) h.disciplined.ordered h.owned hr hguard hs,
    failing_step h.failing hs, counted_step machine_sharing h.counted hs hdisciplined.alive, htraced,
    (made_step machine_tracing (not_arrive hp) hs).trans h.made,
    jobs_step machine_tracing (flawless_rule hE) h.jobs hok hs, kept_step fills_rule h.alone hok hs,
    unfailing_step h.jobs.frames (no_aside hp) h.unfailing hs, issued_step hacc hp h.issued hs,
    keptBoth_step there_rule h.there hok hs⟩

/-- The handler with nothing to do. -/
def atRest (x : Front) (locks : LockTable) : State :=
  { Serial.State.initial ⟨x, fun _ => false, [], [], []⟩ with locks }

theorem mem_slices_id (hsz : 0 < sz) {c : Nat} (hv : v ∈ slices sz c rg src) :
    v.chunkId * sz + v.chunkOffset + v.size ≤ rg.off + rg.len ∧ 0 < v.size := by
  obtain ⟨p, hp, rfl⟩ := List.mem_map.mp hv
  obtain ⟨hoff, hlen, -, hpos⟩ := Blocks.mem_cut hsz hp
  dsimp only
  omega

/-- The locks that a write asks for cover its chunks. -/
theorem lt_extent (hsz : 0 < sz) (hr : rg.off + rg.len + sz ≤ 2 ^ 64) {c : Nat}
    (hv : v ∈ slices sz c rg src) :
    v.chunkId < (divRoundUp64 (wrap (rg.off + rg.len)) sz).getD 0 := by
  obtain ⟨hchunks, -, hend⟩ := chunks_of_range hsz hr
  obtain ⟨hle, hpos⟩ := mem_slices_id hsz hv
  rw [hchunks, Option.getD_some]
  have hlt : v.chunkId * sz < (rg.off + rg.len + sz - 1) / sz * sz := by omega
  exact Nat.lt_of_mul_lt_mul_right hlt

theorem course_arrive (hsz : 0 < sz) (hE : ∀ c i, (E.beh c i).Succeeds)
    (hr : rg.off + rg.len + sz ≤ 2 ^ 64) {locks : LockTable} (hl : ∀ k, ¬ locks.Locked k)
    (hf : y.fills = []) (hy : Mirrors sz y.disk.dev y.cache)
    (hs : (machine sz E).step (atRest y locks) (.arrive (rg, src)) = some s) :
    Course sz E y.disk.dev rg src s := by
  have hacc : ∀ c i, (E.beh c i).Accepts := fun c i => accepts_of_succeeds (hE c i)
  have hrestarts : Restarts (machine sz E) (atRest y locks) (.arrive (rg, src)) := trivial
  have hdisciplined : Disciplined (machine sz E) (atRest y locks) := by
    constructor <;> simp [atRest, State.initial, Machine.owners, hl]
  have hcovers : Covers (machine sz E) (atRest y locks) (.arrive (rg, src)) := by
    rintro _ ⟨⟩ w hw
    obtain ⟨v, hv, rfl⟩ := List.mem_map.mp hw
    exact lt_extent hsz hr hv
  have howned : Owned (chunks sz y.disk.dev) (machine sz E) (atRest y locks) := by
    refine ⟨fun k _ => ⟨fun _ _ => rfl, fun _ => hy k, fun _ _ _ => rfl⟩, ?_, ?_, ?_, ?_, ?_⟩ <;>
      simp [atRest, State.initial]
  have hcounted : Counted (machine sz E) (fun c x => fillsOf c x.front) (atRest y locks) := by
    have h : Counted (machine sz E) (fun c x => fillsOf c x.front)
        (.initial ⟨y, fun _ => false, [], [], []⟩) :=
      counted_initial _ fun c => by simp [fillsOf, hf]
    exact ⟨h.balanced, h.making⟩
  have hjobs : Jobs (machine sz E) Inner.done Flawless Flawless Flawless (atRest y locks) := by
    constructor <;> simp [atRest, State.initial, making]
  have htags : ((atRest y locks).inner.made sz : Multiset Slice) =
      tags (fun w => w.toSlice) Inner.done (atRest y locks) + 0 := by
    simp [atRest, State.initial, tags, making, Inner.made]
  have hd := disciplined_step machine_fixed hcovers hdisciplined hrestarts hs
  obtain ⟨lost, htraced, hnone⟩ := traced_step machine_tracing htags hs
  rw [hnone (fun _ _ => process_zero hacc) hd.alive, add_zero] at htraced
  have hown := owned_step machine_fixed (chunks_sound hsz hacc) hdisciplined.ordered howned hrestarts
    trivial hs
  have hcount := counted_step machine_sharing hcounted hs hd.alive
  have hok : Smooth (atRest y locks) (.arrive (rg, src)) := trivial
  have hjob := jobs_step machine_tracing (flawless_rule hE) hjobs hok hs
  have hfailing := failing_step (s := atRest y locks) rfl hs
  cases Machine.step_sound hs with
  | arrive hq =>
    refine ⟨hd, hown, hfailing, hcount, htraced, ?_, hjob, hf, unfailing_create fun _ => rfl,
      ⟨rfl, rfl⟩, Nat.one_pos⟩
    simp [Machine.arrive, machine, Inner.made, atRest, State.initial, empty]

/-- What the parts of a write leave of a chunk. -/
theorem laid_of_slices (hsz : 0 < sz) {ws : List ChunkWrite}
    (hw : ∀ v, v ∈ ws.map (fun w => w.toSlice) ↔ v ∈ slices sz 0 rg src) (hj : j < sz) :
    laid sz dev₀ k ws j = overlay (fun a => dev₀ (0, a)) rg.off rg.len src (k * sz + j) := by
  have hmem : ∀ v, v ∈ (ws.map fun w => w.toSlice).filter (fun v => v.chunkId == k) ↔
      v ∈ slices sz 0 rg src ∧ v.chunkId = k := fun v => by
    rw [List.mem_filter, hw, beq_iff_eq]
  rw [laid_eq, overlay]
  generalize (ws.map fun w => w.toSlice).filter (fun v => v.chunkId == k) = vs at hmem ⊢
  split
  · rename_i hin
    obtain ⟨m, hm⟩ := Nat.le.dest hin.1
    obtain ⟨p, hp, hlo, hhi⟩ : ∃ p ∈ Blocks.cut sz rg.off rg.len, p.pos ≤ m ∧ m < p.pos + p.len :=
      Blocks.cut_cover hsz (by omega)
    obtain ⟨hoff, -, hlen, -⟩ := Blocks.mem_cut hsz hp
    have haddr : p.id * sz + (p.inner + (m - p.pos)) = k * sz + j := by omega
    have hid : p.id = k := chunk_unique (by omega) hj haddr
    have hcovered : ∃ v ∈ vs, v.chunkOffset ≤ j ∧ j < v.chunkOffset + v.size := by
      refine ⟨_, (hmem _).mpr ⟨List.mem_map.mpr ⟨p, hp, rfl⟩, hid⟩, ?_⟩
      subst hid
      dsimp only
      omega
    -- every part over the byte brings the same
    have hval : ∃ v ∈ vs, (v.chunkOffset ≤ j ∧ j < v.chunkOffset + v.size) ∧
        overlays Slice.chunkOffset Slice.size Slice.src (chunkAt sz dev₀ k) vs j =
          v.src (j - v.chunkOffset) := overlays_of_mem hcovered
    obtain ⟨v, hv, hcov, he⟩ := hval
    obtain ⟨hv, hk⟩ := (hmem v).mp hv
    obtain ⟨p', hp', rfl⟩ := List.mem_map.mp hv
    obtain ⟨hoff', -, -, -⟩ := Blocks.mem_cut hsz hp'
    dsimp only at hk hcov he
    subst hk
    rw [he]
    congr 1
    omega
  · rename_i hout
    refine overlays_of_none fun v hv hcov => hout ?_
    obtain ⟨hv, hk⟩ := (hmem v).mp hv
    obtain ⟨p', hp', rfl⟩ := List.mem_map.mp hv
    obtain ⟨hoff', hlen', -, -⟩ := Blocks.mem_cut hsz hp'
    dsimp only at hk hcov
    subst hk
    omega

/-- When nothing is left to do the client has been told, and the handler below and the cache have
what was written. -/
theorem answer_of_course (hsz : 0 < sz) (h : Course sz E dev₀ rg src s) (hi : Idle s) :
    (s.inner.front.answer s.reqs).ret = some 0 ∧ (s.inner.front.answer s.reqs).err = 0 ∧
      (s.inner.front.answer s.reqs).runs = 1 ∧ (∀ k, ¬ s.locks.Locked k) ∧
      (∀ a, s.inner.front.disk.dev (0, a) = overlay (fun a => dev₀ (0, a)) rg.off rg.len src a) ∧
      Mirrors sz s.inner.front.disk.dev s.inner.front.cache := by
  obtain ⟨⟨hframes, hissue, hdead⟩, hactive, hpending, hfills⟩ := hi
  have hfree : ∀ k, ¬ s.locks.Locked k := fun k hk => by
    rw [h.disciplined.locked] at hk
    simp [Machine.owners, hactive, hframes] at hk
  have hfailing : s.inner.failing = [] := by
    rw [h.failing, hframes]
    rfl
  have hsound : s.inner.Sound := fun w hw => err_of_flawless (h.jobs.book w hw).1
  have hdone : ∀ v, v ∈ s.inner.done.map (fun w => w.toSlice) ↔ v ∈ slices sz 0 rg src := by
    have htags := h.traced
    simp only [tags, hissue, hpending, hactive, making, List.map_nil, Multiset.coe_nil, zero_add,
      h.made, Multiset.coe_eq_coe] at htags
    exact fun v => htags.symm.mem_iff
  refine ⟨?_, h.unfailing 0, ?_, hfree, fun a => ?_, fun k d hd => ?_⟩
  · have hret := h.issued
    rw [hissue] at hret
    exact hret
  · have hruns := h.counted.balanced.runs 0 h.there
    simpa [Front.answer, shares, hissue, hframes, hpending, hactive, fillsOf, hfills] using hruns
  · have hmod := Nat.mod_lt a hsz
    have hplaced := (h.owned.free (a / sz) (hfree _)).placed hsound (a % sz) hmod
    rw [laid_of_slices hsz hdone hmod, chunkAt, Nat.div_add_mod'] at hplaced
    exact hplaced
  · exact (h.owned.free k (hfree k)).shows (by simp [hfailing]) d hd

end Ublk.Cache.Rwt
