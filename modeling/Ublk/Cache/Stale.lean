import Ublk.Cache.Faultless
import Ublk.Cache.Invalidation

/-!
Old bytes in the cache of `RWTHandler`. A read brings a chunk into the cache as it was read, without
what writes brought to it since or are yet to bring. Where no read does so the cache keeps up with
the handler below.
-/
namespace Ublk.Cache

open Shared Requests Serial

section Fronts

variable {sz : Nat} {E : Env} {cov : Nat → Bool} {x : Front} {t : Requests} {f : Fill}
  {p : Blocks.Piece} {ps : List Blocks.Piece} {rd cid : Nat}

/-- A chunk has all that writes brought to it since it was read, and no write is yet to bring more. -/
def Fill.UpToDate (sz : Nat) (cov : Nat → Bool) (f : Fill) : Prop :=
  ∀ j < sz, f.late j = false ∧ cov (f.piece.id * sz + j) = false

/-- Along the loop over a read, no chunk is read at once that a write is yet to bring bytes to. -/
def Front.LoopPrompt (sz : Nat) (E : Env) (cov : Nat → Bool) (rd cid : Nat) :
    List Blocks.Piece → Front → Requests → Prop
  | [], _, _ => True
  | p :: ps, x, t =>
    let r := x.cache.find p.id
    if r.1.size = 0 then
      let s : Int × Front × Requests := { x with cache := r.2 }.readChunk sz E cov rd cid p t
      ((∃ hit, E.beh false x.disk.next = .done 0 hit) → ∀ j < sz, cov (p.id * sz + j) = false) ∧
        (s.1 = 0 → LoopPrompt sz E cov rd cid ps s.2.1 s.2.2)
    else
      let x := { x with cache := r.2 }
      LoopPrompt sz E cov rd cid ps (x.deliver rd p (r.1.data.getD (E.junk x.disk.next))) t

def Front.ReadPrompt (sz : Nat) (E : Env) (cov : Nat → Bool) (r : Range) (buf : Nat → Byte)
    (x : Front) (t : Requests) : Prop :=
  let rd : ClientRead := ⟨t.count, r.off, r.len, buf, fun _ => false, fun i => cov (r.off + i)⟩
  { x with reads := x.reads ++ [rd] }.LoopPrompt sz E cov x.reads.length t.count
    (readPieces sz r.off r.len r.len (r.off / sz) 0) t.create

theorem upToDate_filled (h : f.query.err = 0 → f.seq = x.seq → f.UpToDate sz cov) :
    (x.filled sz cov f t).1.outdated = x.outdated := by
  unfold Front.filled
  split
  · rfl
  · rename_i he
    have he : f.query.err = 0 := by simpa using he
    dsimp only
    split
    · rename_i hs
      have hall := h he hs
      have hany : ((List.range sz).any fun j => f.late j || cov (f.piece.id * sz + j)) = false := by
        rw [List.any_eq_false]
        intro j hj
        obtain ⟨hl, hc⟩ := hall j (List.mem_range.mp hj)
        simp [hl, hc]
      dsimp only [Front.insert, Front.deliver]
      rw [hany, Bool.or_false]
    · rfl

theorem upToDate_readChunk (ha : (E.beh false x.disk.next).Accepts)
    (h : (∃ hit, E.beh false x.disk.next = .done 0 hit) → ∀ j < sz, cov (p.id * sz + j) = false) :
    (x.readChunk sz E cov rd cid p t).2.1.outdated = x.outdated := by
  unfold Front.readChunk
  dsimp only
  split
  · rename_i ho
    refine upToDate_filled fun he _ j hj => ⟨rfl, ?_⟩
    unfold Query.submit at ho he
    cases hb : E.beh (Query.read (E.junk x.disk.next)).write x.disk.next with
    | reject e hne =>
      have hb : E.beh false x.disk.next = .reject e hne := hb
      rw [hb] at ha
      exact ha.elim
    | held =>
      rw [hb] at ho
      cases ho
    | done e hit =>
      simp only [hb] at he
      by_cases h0 : e = 0
      · subst h0
        exact h ⟨hit, hb⟩ j hj
      · simp [Query.setErr, h0] at he
  · rfl

theorem upToDate_readLoop (hE : ∀ i, (E.beh false i).Accepts)
    (h : x.LoopPrompt sz E cov rd cid ps t) :
    (x.readLoop sz E cov rd cid ps t).2.1.outdated = x.outdated := by
  induction ps generalizing x t with
  | nil => rfl
  | cons p ps ih =>
    rw [Front.LoopPrompt] at h
    rw [Front.readLoop]
    dsimp only at h ⊢
    by_cases hz : (x.cache.find p.id).1.size = 0
    · rw [if_pos hz] at h
      rw [if_pos hz]
      obtain ⟨hnow, hrest⟩ := h
      have hchunk := @upToDate_readChunk sz E cov { x with cache := (x.cache.find p.id).2 } t p rd
        cid (hE _) hnow
      split
      · rename_i h0
        exact (ih (hrest h0)).trans hchunk
      · exact hchunk
    · rw [if_neg hz] at h
      rw [if_neg hz]
      exact ih h

end Fronts

namespace Rwt

variable {sz n : Nat} {E : Env} {dev₀ : Addr → Byte} {w : ChunkWrite} {x x' : Inner} {a : Act}
  {b : Beside} {s t : State} {l : Label} {q q' : Requests} {r : ChunkWrite × Inner} {k : Nat}
  {hn : 0 < n} {hsz : 0 < sz}

/-- A read that puts a chunk into the cache puts it there with all that writes brought to it, and no
write handed on is yet to bring more. -/
def Prompt (sz : Nat) (E : Env) (s : State) : Label → Prop
  | .aside (.read r buf) => s.inner.front.ReadPrompt sz E s.inner.owed r buf s.reqs
  | .aside (.settle i e) => e = 0 → ∀ f, s.inner.front.fills[i]? = some f →
    f.seq = s.inner.front.seq → f.UpToDate sz s.inner.owed
  | _ => True

theorem outdated_rmwDone : (rmwDone sz E w x).2.front.outdated = x.front.outdated := by
  unfold rmwDone
  split
  · rfl
  · rfl

theorem outdated_process : (process sz E w x).2.2.front.outdated = x.front.outdated := by
  unfold process
  split
  · rfl
  · dsimp only
    split
    · unfold readFirst
      dsimp only
      split
      · exact outdated_rmwDone
      · rfl
    · rfl

/-- Parts of writes bring no old bytes into the cache. -/
theorem outdated_rule : Kept (machine sz E)
    (fun b x => ∀ q r, aside sz E b x q = some r → r.1.front.outdated = false)
    fun x => x.front.outdated = false where
  split _ _ _ h := h
  start _ _ h := outdated_process.trans h
  react a w x w' x' hr h := by
    cases a with
    | sample hit =>
      obtain ⟨v, -, he⟩ := Option.map_eq_some_iff.mp hr
      cases he
      exact h
    | fill e =>
      obtain ⟨v, -, he⟩ := Option.map_eq_some_iff.mp hr
      have hx : x' = (rmwDone sz E { w with rmwq := v } x).2 := (congrArg Prod.snd he).symm
      rw [hx]
      exact outdated_rmwDone.trans h
    | apply hit =>
      obtain ⟨v, -, he⟩ := Option.map_eq_some_iff.mp hr
      cases he
      exact h
    | complete e =>
      obtain ⟨v, -, he⟩ := Option.map_eq_some_iff.mp hr
      cases he
      exact h
  enter _ _ h := h
  leave w x h := by
    dsimp only [machine]
    split
    · exact h
    · exact h
  aside b x q x' q' hok ha _ := hok q _ ha

theorem outdated_aside (hE : ∀ i, (E.beh false i).Accepts) (hp : Prompt sz E s (.aside b))
    (ha : aside sz E b s.inner s.reqs = some (x', q')) :
    x'.front.outdated = s.inner.front.outdated := by
  cases b with
  | read rg buf =>
    cases ha
    exact upToDate_readLoop hE hp
  | sample i hit =>
    obtain ⟨y, hy, he⟩ := Option.map_eq_some_iff.mp ha
    cases he
    obtain ⟨f, v, -, -, rfl⟩ := sample_cases hy
    rfl
  | settle i e =>
    obtain ⟨y, hy, he⟩ := Option.map_eq_some_iff.mp ha
    cases he
    obtain ⟨f, v, hf, hv, rfl⟩ := settle_cases hy
    refine upToDate_filled fun h0 hs => hp ?_ f hf hs
    obtain ⟨op, -, -, rfl⟩ := Query.settle_eq hv
    by_contra he
    simp [Query.setErr, he] at h0

theorem inTime_of_prompt (hE : ∀ i, (E.beh false i).Accepts)
    (ho : s.inner.front.outdated = false) (hp : Prompt sz E s l) : InTime sz E s l := by
  intro t hs
  have hok : Guarded (fun _ _ => True)
      (fun b x => ∀ q r, aside sz E b x q = some r → r.1.front.outdated = false) s l := by
    cases l with
    | aside b =>
      intro q r hr
      cases Machine.step_sound hs with
      | aside hq ha =>
        rw [alike_aside hr ha, outdated_aside hE hp ha]
        exact ho
    | act i a => exact fun _ _ => trivial
    | _ => trivial
  exact kept_step outdated_rule ho hok hs

/-- What holds of chunks and of reads in runs whose reads are prompt. -/
theorem inv_of_prompt {ok : State → Label → Prop} (hsz : 0 < sz)
    (hE : ∀ c i, (E.beh c i).Accepts) (hok : ∀ s l, ok s l → Prompt sz E s l)
    (h : Lts.Run (machine sz E).step ok (.initial (.initial n sz hn hsz dev₀)) s) :
    Inv sz E dev₀ s := by
  have hrun : Inv sz E dev₀ s ∧ s.inner.front.outdated = false := by
    refine Lts.run_invariant (I := fun s => Inv sz E dev₀ s ∧ s.inner.front.outdated = false) h
      ⟨inv_initial, rfl⟩ ?_
    rintro a l b ⟨hi, ho⟩ hl hs
    have htime := inTime_of_prompt (hE false) ho (hok a l hl)
    exact ⟨inv_step hsz hE hi htime hs, htime b hs⟩
  exact hrun.1

/-- Where nothing fails, no part fails and no request. -/
theorem faultless_run {ok : State → Label → Prop} (hE : ∀ c i, (E.beh c i).Succeeds)
    (hok : ∀ s l, ok s l → Faultless s l ∧ Prompt sz E s l)
    (h : Lts.Run (machine sz E).step ok (.initial (.initial n sz hn hsz dev₀)) s) :
    Inv sz E dev₀ s ∧ Jobs (machine sz E) Inner.done Flawless Flawless Flawless s ∧
      Unfailing s.reqs := by
  have hacc : ∀ c i, (E.beh c i).Accepts := fun c i => accepts_of_succeeds (hE c i)
  have hjobs : ∀ t, Lts.Run (machine sz E).step ok (.initial (.initial n sz hn hsz dev₀)) t →
      Jobs (machine sz E) Inner.done Flawless Flawless Flawless t :=
    fun t ht => jobs_run machine_tracing (flawless_rule hE) book_initial
      (Lts.run_mono (fun s l hl => (hok s l hl).1) ht)
  have hinv : ∀ t, Lts.Run (machine sz E).step ok (.initial (.initial n sz hn hsz dev₀)) t →
      Inv sz E dev₀ t :=
    fun t ht => inv_of_prompt hsz hacc (fun s l hl => (hok s l hl).2) ht
  refine ⟨hinv s h, hjobs s h, ?_⟩
  induction h with
  | refl => exact fun _ => rfl
  | tail hrun ho hs ih =>
    refine unfailing_step (hjobs _ hrun).frames (fun b z hb ha => ?_) ih hs
    subst hb
    exact unfailing_aside (hE false) (hinv _ hrun).seen.tracked (hok _ _ ho).1 ha ih

/-- In runs without a fault whose reads are prompt: a cached byte is the one below unless a write
handed on covers it; a byte below that no such write covers is as the parts that ended left it; a
read that is over has the bytes below, but for those that a write was under way to when the read
came or reached since. -/
theorem coherent_of_run (hE : ∀ c i, (E.beh c i).Succeeds)
    (h : Lts.Run (machine sz E).step (fun s l => Faultless s l ∧ Prompt sz E s l)
      (.initial (.initial n sz hn hsz dev₀)) s) :
    (∀ k d, s.inner.front.cache.get k = some d → ∃ b, d = some b ∧ ∀ j < sz,
      b j = s.inner.front.disk.dev (0, k * sz + j) ∨
        ∃ w ∈ s.active, w.wq.ops ≠ [] ∧ w.Covers sz (k * sz + j)) ∧
    (∀ k, ∀ j < sz, (∀ w ∈ s.active, w.wq.ops ≠ [] → ¬ w.Covers sz (k * sz + j)) →
      s.inner.front.disk.dev (0, k * sz + j) = laid sz dev₀ k s.inner.done j) ∧
    ∀ rd r, s.inner.front.reads[rd]? = some r → (∀ f ∈ s.inner.front.fills, f.rd ≠ rd) →
      (s.reqs.req r.cid).err = 0 ∧ ∀ i < r.len, r.raced i = false →
        r.buf i = s.inner.front.disk.dev (0, r.off + i) := by
  obtain ⟨hinv, hjobs, hreqs⟩ := faultless_run hE (fun _ _ hl => hl) h
  have hsound : s.inner.Sound := fun w hw => err_of_flawless (hjobs.book w hw).1
  have hnone : s.inner.failing = [] := by
    rw [hinv.failing, failures, List.filter_eq_nil_iff.mpr]
    · rfl
    · intro f hf
      simp [err_of_flawless (hjobs.frames f hf)]
  refine ⟨fun k d hd => ?_, fun k j hj hc => ?_, fun rd r hr hf => ⟨hreqs _, fun i hi hn => ?_⟩⟩
  · obtain ⟨b, rfl, hb⟩ := shown_of_inv hinv (k := k) (by simp [hnone]) hd
    exact ⟨b, rfl, fun j hj => (hb j hj).imp_right And.right⟩
  · obtain hs | ⟨w, hw, rfl, hs, ho⟩ := chunk_cases hinv k
    · exact hs.placed hsound j hj
    · exact hs.placed hsound j hj fun hin => hc w hw ho (covers_iff.mpr hin)
  · have hgot : r.got i = true := by
      rcases hinv.seen.delivers.bytes rd r hr i hi with hg | ⟨f, hfill, hrd, -⟩ | hne | hw
      · exact hg
      · exact absurd hrd (hf f hfill)
      · exact absurd (hreqs _) hne
      · exact hw.elim
    exact hinv.seen.tracked.reads r (List.mem_of_getElem? hr) i hgot hn

theorem item_pos : 0 < 1024 := by decide

theorem half_pos : 0 < 512 := by decide

theorem item_top : 0 + 1024 ≤ 2 ^ 64 := by decide

theorem half_top : 0 + 512 ≤ 2 ^ 64 := by decide

/-- The first item, of 1024 bytes, and its first half. -/
def item : Range := ⟨0, 1024, item_pos, item_top⟩

def half : Range := ⟨0, 512, half_pos, half_top⟩

/-- Steps one after the other, from a cache of one item over a handler that has zeros. -/
def afterSteps (E : Env) (ls : List Label) : Option State :=
  Lts.exec (machine 1024 E).step (.initial (.initial 1 1024 Nat.one_pos item_pos fun _ => 0)) ls

/-- The item is written. The write completes with `e`. -/
def itemWritten (e : Int) : List Label :=
  [.arrive (item, fun _ => ⟨1⟩), .tick, .tick, .act 0 (.apply fun _ => true), .act 0 (.complete e),
    .tick, .tick]

theorem keeping_succeeds : ∀ c i, (keeping.beh c i).Succeeds := fun _ _ => trivial

theorem prompt_itemWritten {e : Int} {l : Label} (h : l ∈ itemWritten e) (s : State) :
    Prompt 1024 keeping s l := by
  simp only [itemWritten, List.mem_cons, List.not_mem_nil, or_false] at h
  rcases h with rfl | rfl | rfl | rfl | rfl | rfl | rfl
  all_goals exact trivial

theorem faultless_itemWritten {l : Label} (h : l ∈ itemWritten 0) (s : State) : Faultless s l := by
  simp only [itemWritten, List.mem_cons, List.not_mem_nil, or_false] at h
  rcases h with rfl | rfl | rfl | rfl | rfl | rfl | rfl
  all_goals first | exact trivial | exact fun _ _ => trivial | exact fun _ _ => rfl

theorem coherent_of_run_itemWritten : ∃ s b, afterSteps keeping (itemWritten 0) = some s ∧
    s.inner.front.cache.get 0 = some (some b) ∧
      ∀ j < 1024, b j = s.inner.front.disk.dev (0, 0 * 1024 + j) := by
  obtain ⟨s, hs⟩ : ∃ s, afterSteps keeping (itemWritten 0) = some s :=
    Option.isSome_iff_exists.mp (by decide +kernel)
  have hend : (afterSteps keeping (itemWritten 0)).all (fun s =>
      s.active.isEmpty && (s.inner.front.cache.get 0).isSome) = true := by decide +kernel
  simp only [hs, Option.all_some, Bool.and_eq_true, List.isEmpty_iff] at hend
  obtain ⟨hact, hcached⟩ := hend
  obtain ⟨d, hd⟩ := Option.isSome_iff_exists.mp hcached
  have hok : ∀ l ∈ itemWritten 0, ∀ s, Faultless s l ∧ Prompt 1024 keeping s l :=
    fun l hl s => ⟨faultless_itemWritten hl s, prompt_itemWritten hl s⟩
  have hall := coherent_of_run keeping_succeeds (Lts.run_of_exec hok hs)
  obtain ⟨b, rfl, hb⟩ := hall.1 0 d hd
  refine ⟨s, b, hs, hd, fun j hj => (hb j hj).resolve_right ?_⟩
  simp [hact]

/-- Two reads of the item, which is not cached; the second one completes. Half of the item is
written. Then the first read completes. -/
def overtaken : List Label :=
  [.aside (.read item fun _ => 0), .aside (.sample 0 fun _ => true),
    .aside (.read item fun _ => 0), .aside (.sample 1 fun _ => true), .aside (.settle 1 0),
    .arrive (half, fun _ => ⟨1⟩), .tick, .tick, .act 0 (.apply fun _ => true),
    .act 0 (.complete 0), .tick, .tick, .aside (.settle 0 0)]

theorem faultless_overtaken {l : Label} (h : l ∈ overtaken) (s : State) : Faultless s l := by
  simp only [overtaken, List.mem_cons, List.not_mem_nil, or_false] at h
  rcases h with rfl | rfl | rfl | rfl | rfl | rfl | rfl | rfl | rfl | rfl | rfl | rfl | rfl
  all_goals first | exact trivial | exact fun _ _ => trivial | exact fun _ _ => rfl | exact rfl

/-- The write found the item cached, so that the count of writes did not go up. The item is cached
as it was before the write, and no write is under way. -/
theorem not_coherent : ¬ ∀ (n sz : Nat) (hn : 0 < n) (hsz : 0 < sz) (E : Env) (dev₀ : Addr → Byte)
    (s : State), (∀ c i, (E.beh c i).Succeeds) →
    Lts.Run (machine sz E).step Faultless (.initial (.initial n sz hn hsz dev₀)) s →
    ∀ k b, s.inner.front.cache.get k = some (some b) → ∀ j < sz,
      b j = s.inner.front.disk.dev (0, k * sz + j) ∨
        ∃ w ∈ s.active, w.wq.ops ≠ [] ∧ w.Covers sz (k * sz + j) := by
  intro hall
  obtain ⟨s, hs⟩ : ∃ s, afterSteps keeping overtaken = some s :=
    Option.isSome_iff_exists.mp (by decide +kernel)
  have hend : (afterSteps keeping overtaken).all (fun s => s.active.isEmpty &&
      (s.inner.front.cache.get 0).any fun d => d.any fun b =>
        b 0 != s.inner.front.disk.dev (0, 0)) = true := by decide +kernel
  simp only [hs, Option.all_some, Bool.and_eq_true, List.isEmpty_iff, Option.any_eq_true,
    bne_iff_ne] at hend
  obtain ⟨hact, d, hd, b, rfl, hne⟩ := hend
  have hrun := Lts.run_of_exec (fun l hl s => faultless_overtaken hl s) hs
  have hb := hall 1 1024 _ _ keeping _ s keeping_succeeds hrun 0 b hd 0 item_pos
  simp [hact, hne] at hb

section Accepts

variable (hE : ∀ c i, (E.beh c i).Accepts)

include hE

theorem rej_rmwDone (h : w.wq.rej = 0) : (rmwDone sz E w x).1.wq.rej = 0 := by
  unfold rmwDone
  split
  · exact (rej_of_accepts (q := Query.writing w.src) (hE _ _) rfl).2
  · exact h

theorem rej_process (h : w.wq.rej = 0) : (process sz E w x).2.1.wq.rej = 0 := by
  unfold process
  split
  · exact (rej_of_accepts (q := Query.writing w.src) (hE _ _) rfl).2
  · dsimp only
    split
    · unfold readFirst
      dsimp only
      split
      · exact rej_rmwDone hE h
      · exact h
    · exact (rej_of_accepts (q := Query.writing w.src) (hE _ _) rfl).2

/-- No write is turned down. -/
theorem rej_rule : JobRule (machine sz E) (fun w => w.wq.rej = 0) (fun w => w.wq.rej = 0)
    (fun w => w.wq.rej = 0) fun _ _ => True where
  launch _ _ h := rej_process hE h
  restart _ _ h := rej_process hE h
  react a w x w' x' _ h hr := by
    cases a with
    | sample hit =>
      obtain ⟨v, -, he⟩ := Option.map_eq_some_iff.mp hr
      cases he
      exact h
    | fill e =>
      obtain ⟨v, -, he⟩ := Option.map_eq_some_iff.mp hr
      have hw : w' = (rmwDone sz E { w with rmwq := v } x).1 := (congrArg Prod.fst he).symm
      rw [hw]
      exact rej_rmwDone hE h
    | apply hit =>
      obtain ⟨v, hv, he⟩ := Option.map_eq_some_iff.mp hr
      cases he
      exact (Query.effect_keeps hv).2.1.trans h
    | complete e =>
      obtain ⟨v, hv, he⟩ := Option.map_eq_some_iff.mp hr
      cases he
      exact (Query.settle_keeps hv).2.2.1.trans h
  park _ h := h
  split r c x w hw := by
    obtain ⟨v, -, rfl⟩ := List.mem_map.mp hw
    rfl

end Accepts

/-- Whatever fails, as long as nothing is turned down and reads are prompt: the request of a part
whose write failed has an error when its completer runs, and a chunk with no part handed on and
none ending is cached as the handler below has it, if at all. -/
theorem backed_of_run (hE : ∀ c i, (E.beh c i).Accepts)
    (h : Lts.Run (machine sz E).step (Prompt sz E) (.initial (.initial n sz hn hsz dev₀)) s) :
    (∀ w ∈ s.inner.done, ¬ w.wq.Clean → (s.reqs.req w.cid).runs ≠ 0 →
      (s.reqs.req w.cid).err ≠ 0) ∧
    ∀ k d, (∀ w ∈ s.active, w.chunkId = k → w.wq.ops = []) →
      (∀ f ∈ s.frames, f.job.chunkId ≠ k) → s.inner.front.cache.get k = some d →
      ∃ b, d = some b ∧ ∀ j < sz, b j = s.inner.front.disk.dev (0, k * sz + j) := by
  have hinv := inv_of_prompt hsz hE (fun _ _ hl => hl) h
  have hguard : Lts.Run (machine sz E).step (Guarded (fun _ _ => True) fun _ _ => True)
      (.initial (.initial n sz hn hsz dev₀)) s :=
    Lts.run_mono (fun s l _ => by cases l <;> simp [Guarded]) h
  have hjobs := jobs_run machine_tracing (rej_rule hE) book_initial hguard
  refine ⟨fun w hw hc hr => ?_, fun k d ha hf hd => ?_⟩
  · refine failure_told h hw (.inr ?_) hr
    by_contra hb
    exact hc ⟨(hjobs.book w hw).1, by simpa using hb⟩
  obtain hs | ⟨w, hw, hk, -, ho⟩ := chunk_cases hinv k
  · refine hs.shows ?_ d hd
    rw [hinv.failing]
    intro hk
    obtain ⟨f, hmem, hk⟩ := List.mem_map.mp hk
    exact hf f (List.mem_filter.mp hmem).1 hk
  · exact absurd (ha w hw hk) ho

/-- The write of the item is accepted and fails. -/
theorem backed_of_run_itemWritten : ∃ s, afterSteps keeping (itemWritten 5) = some s ∧
    ∀ w ∈ s.inner.done, ¬ w.wq.Clean → (s.reqs.req w.cid).runs ≠ 0 →
      (s.reqs.req w.cid).err ≠ 0 := by
  obtain ⟨s, hs⟩ : ∃ s, afterSteps keeping (itemWritten 5) = some s :=
    Option.isSome_iff_exists.mp (by decide +kernel)
  have hrun := Lts.run_of_exec (fun l hl s => prompt_itemWritten hl s) hs
  have hE : ∀ c i, (keeping.beh c i).Accepts := fun c i => accepts_of_succeeds (keeping_succeeds c i)
  exact ⟨s, hs, (backed_of_run hE hrun).1⟩

/-- Each write is turned down, each read is kept. -/
def refusing : Env where
  beh b _ := if b then .refused else .held
  junk _ _ := 0

/-- A write of an item that is turned down leaves its bytes in the cache. -/
theorem not_backed : ¬ ∀ (n sz : Nat) (hn : 0 < n) (hsz : 0 < sz) (E : Env) (dev₀ : Addr → Byte)
    (s : State), (∀ i, (E.beh false i).Succeeds) →
    Lts.Run (machine sz E).step (fun _ _ => True) (.initial (.initial n sz hn hsz dev₀)) s →
    ∀ k b, s.active = [] → s.frames = [] → s.pending = [] → s.issue = none →
      s.inner.front.cache.get k = some (some b) →
      ∀ j < sz, b j = s.inner.front.disk.dev (0, k * sz + j) := by
  intro hall
  obtain ⟨s, hs⟩ : ∃ s, afterSteps refusing
      [.arrive (item, fun _ => ⟨1⟩), .tick, .tick, .tick, .tick] = some s :=
    Option.isSome_iff_exists.mp (by decide +kernel)
  have hend : (afterSteps refusing [.arrive (item, fun _ => ⟨1⟩), .tick, .tick, .tick, .tick]).all
      (fun s => s.active.isEmpty && s.frames.isEmpty && s.pending.isEmpty && s.issue.isNone &&
        (s.inner.front.cache.get 0).any fun d => d.any fun b =>
          b 0 != s.inner.front.disk.dev (0, 0)) = true := by decide +kernel
  simp only [hs, Option.all_some, Bool.and_eq_true, List.isEmpty_iff, Option.any_eq_true,
    bne_iff_ne, Option.isNone_iff_eq_none] at hend
  obtain ⟨⟨⟨⟨hact, hframes⟩, hpending⟩, hissue⟩, d, hd, b, rfl, hne⟩ := hend
  have hrun := Lts.run_of_exec (fun _ _ _ => trivial) hs
  refine hne (hall 1 1024 _ _ refusing _ s (fun _ => trivial) hrun 0 b hact hframes hpending hissue
    hd 0 item_pos)

end Rwt

end Ublk.Cache
