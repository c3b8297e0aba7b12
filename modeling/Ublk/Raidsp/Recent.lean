import Ublk.Raidsp.Durable
import Ublk.Raidsp.Forget

/-!
What a client reads whatever fails. A byte of a read without an error is the one that the array had
when the read came, or one of a sub-write that was under way then or came later.
-/
namespace Ublk.Raidsp

open Shared Serial Acceptor

variable {G : Geometry} {E : Env} {dev₀ : Addr → Byte} {w w' : SubWrite} {x x' : Inner}
  {s t u : State SubWrite Inner} {l : Label WriteReq Act Beside} {act : Act} {b : Byte} {bs : Beside}
  {q q' : Requests} {c o off size : Nat} {good : Nat → Byte → Prop}

/-- Byte `o` of the array is as it was, or sub-write `w` brought it. -/
def Brought (G : Geometry) (w : SubWrite) (x x' : Inner) (o : Nat) : Prop :=
  x'.disk.dev (G.flatLoc o) = x.disk.dev (G.flatLoc o) ∨
    w.stripe = o / G.stripeDataSz ∧ w.Covers (o % G.stripeDataSz) ∧
      x'.disk.dev (G.flatLoc o) = w.src (o % G.stripeDataSz - w.off)

/-- A sub-write at work, seen from the bytes that are there now. -/
theorem working_forget (h : Working G dev₀ w x) : Working G x.disk.dev w x.forget :=
  ⟨h.fits, fun _ _ => .inl (LastWrites.left_nil.mpr rfl), h.reads, h.data, h.wqd, h.wqp⟩

theorem brought_of_working (h : Working G x.disk.dev w x'.forget) (he : Elsewhere G w.stripe x x') :
    Brought G w x x' o := by
  by_cases hk : w.stripe = o / G.stripeDataSz
  · have hbyte := h.bytes _ (Nat.mod_lt o G.stripeDataSz_pos)
    rw [hk] at hbyte
    obtain hold | ⟨hc, hnew⟩ := hbyte
    · exact .inl (LastWrites.left_nil.mp hold)
    · exact .inr ⟨hk, hc, hnew⟩
  · refine .inl (he.dev _ ?_)
    rw [Geometry.flatLoc, Geometry.row_loc]
    exact Ne.symm hk

theorem brought_process (hw : (tracedStripes G dev₀).fit w) :
    Brought G (process G E w x).2.1 x (process G E w x).2.2 o := by
  have hstays : Stays G w x (process G E w x).2 := stays_process
  have hnow : Working G x.disk.dev w x.forget :=
    working_of_traced (fun _ _ => LastWrites.left_nil.mpr rfl) hw
  have hthen := working_process (E := E) hnow
  rw [forget_process] at hthen
  refine brought_of_working hthen ?_
  rw [slice_of_request hstays.request]
  exact hstays.elsewhere hw.1

theorem brought_react (h : Working G dev₀ w x) (hr : react G E act w x = some (w', x')) :
    Brought G w' x x' o := by
  refine brought_of_working (working_react (working_forget h) (forget_react hr)) ?_
  rw [slice_of_request (react_keeps hr).1]
  exact elsewhere_react_of_working h hr

/-- Byte `b` was at `o` of the array at `s`, or it comes from a sub-write that had not ended by
then. -/
def Recent (G : Geometry) (s t : State SubWrite Inner) (o : Nat) (b : Byte) : Prop :=
  b = s.inner.disk.dev (G.flatLoc o) ∨
  Begun (fun x => x.done) (fun w => w.id ∉ s.inner.done.map (fun v => v.id) ∧
    w.stripe = o / G.stripeDataSz ∧ w.Covers (o % G.stripeDataSz) ∧
      b = w.src (o % G.stripeDataSz - w.off)) t

theorem recent_step (h : Recent G s t o b) (hs : (acceptor G E).step t l = some u) :
    Recent G s u o b := by
  refine h.imp_right fun hb => begun_step acceptor_tracing ?_ hb hs
  intro a w x w' x' hr hw
  obtain ⟨hreq, -⟩ := react_keeps hr
  rwa [id_of_request hreq, slice_of_request hreq]

section Run

variable (h : Lts.Run (acceptor G E).step (RestartAccepted G E) (.initial (Inner.initial dev₀)) t)

include h

/-- A sub-write that has not ended is none of those that have. -/
theorem id_new (hw : w ∈ making t.issue ∨ w ∈ t.pending ∨ w ∈ t.active) :
    w.id ∉ t.inner.done.map fun v => v.id := by
  have hnd := Multiset.nodup_of_le (tags_le_run acceptor_numbering rfl h)
    (Multiset.coe_nodup.mpr List.nodup_range)
  obtain ⟨-, -, hapart⟩ := Multiset.nodup_add.mp hnd
  refine fun hmem => Multiset.disjoint_left.mp hapart ?_ (Multiset.mem_coe.mpr hmem)
  simp only [Multiset.mem_add, Multiset.mem_coe]
  obtain hw | hw | hw := hw
  · exact .inl (.inl (List.mem_map_of_mem hw))
  · exact .inl (.inr (List.mem_map_of_mem hw))
  · exact .inr (List.mem_map_of_mem hw)

/-- The devices keep to recent bytes. -/
theorem recent_dev_step (hpre : s.inner.done <+: t.inner.done)
    (hdev : ∀ o, Recent G s t o (t.inner.disk.dev (G.flatLoc o)))
    (hs : (acceptor G E).step t l = some u) (o : Nat) :
    Recent G s u o (u.inner.disk.dev (G.flatLoc o)) := by
  obtain ⟨-, ho⟩ := traced_run h
  have hold := recent_step (hdev o) hs
  have hsame : u.inner.disk.dev = t.inner.disk.dev →
      Recent G s u o (u.inner.disk.dev (G.flatLoc o)) := fun he => he ▸ hold
  -- the sub-write that was started or acted on
  have hplace : ∀ (w w' : SubWrite) (v : State SubWrite Inner), u = (acceptor G E).place w' v →
      (w ∈ making t.issue ∨ w ∈ t.pending ∨ w ∈ t.active) → w'.id = w.id →
      Brought G w' t.inner v.inner o → Recent G s u o (u.inner.disk.dev (G.flatLoc o)) := by
    rintro w w' v rfl hw hid hb
    have hd : ((acceptor G E).place w' v).inner.disk = v.inner.disk := by
      unfold Machine.place
      split <;> rfl
    rw [hd]
    obtain he | ⟨hk, hc, he⟩ := hb
    · rw [he]
      exact he ▸ hold
    · refine .inr ((begun_place acceptor_tracing).mpr (.inr ⟨fun hmem => ?_, hk, hc, he⟩))
      rw [hid] at hmem
      exact id_new h hw ((hpre.map _).subset hmem)
  cases Machine.step_sound hs with
  | restart hd hf hl hp =>
    obtain ⟨-, hperm⟩ := popFirst_some hp
    have hmem := hperm.mem_iff.mpr (.head _)
    exact hplace _ _ _ rfl (.inr (.inl hmem)) (id_of_request stays_process.request)
      (brought_process (ho.waiting _ hmem))
  | launch hd hf hi ht =>
    refine hplace _ _ _ rfl (.inl ?_) (id_of_request stays_process.request)
      (brought_process (ho.making _ hi _ (.head _)))
    rw [hi]
    exact .head _
  | act hq hj hr =>
    have hmem := List.mem_of_getElem? hj
    exact hplace _ _ _ rfl (.inr (.inr hmem)) (id_of_request (react_keeps hr).1)
      (brought_react (ho.held _ hmem) hr)
  | aside hq hr => exact hsame (beside_keeps hr).2
  | _ => exact hsame rfl

end Run

/-- Where the reads of a state come from: they were there, some of their bytes came or one of their
subqueries completed, or they are new. -/
theorem beside_reads_cases (h : beside G E bs x q = some (x', q')) :
    q.count ≤ q'.count ∧ (∀ rd, rd ∈ x'.reads ∨ rd ∈ x'.served →
      (rd ∈ x.reads ∨ rd ∈ x.served) ∨
      (∃ rd₀ ∈ x.reads, ∃ v k, rd = { rd₀ with query := v } ∧
        ((∃ hit dev', rd₀.query.effect k hit x.disk.dev = some (v, dev')) ∨
          ∃ e, rd₀.query.settle k e = some v)) ∨
      (rd.cid = q.count ∧ q.count < q'.count ∧ (∃ hpos, bs = .read rd.off rd.size hpos) ∧
        rd.query = ((Query.read (E.junk q.count)).submitAll E (G.dataRead
          (rd.off / G.stripeDataSz) (rd.off % G.stripeDataSz) rd.size) x.disk).2.1)) ∧
      ∀ rd ∈ x'.served, rd ∈ x.served ∨ rd.query.ops = [] := by
  cases bs with
  | read off size hpos =>
    simp only [beside, Option.some.injEq, Prod.mk.injEq] at h
    split at h
    · rename_i ho
      obtain ⟨rfl, rfl⟩ := h
      refine ⟨by simp [serve], fun rd hrd => ?_, fun rd hrd => ?_⟩
      · obtain hrd | hrd := hrd
        · exact .inl (.inl hrd)
        · obtain hrd | hrd := List.mem_append.mp hrd
          · exact .inl (.inr hrd)
          · obtain rfl := List.mem_singleton.mp hrd
            exact .inr (.inr ⟨rfl, by simp [serve], ⟨hpos, rfl⟩, rfl⟩)
      · obtain hrd | hrd := List.mem_append.mp hrd
        · exact .inl hrd
        · exact .inr (List.mem_singleton.mp hrd ▸ ho)
    · obtain ⟨rfl, rfl⟩ := h
      refine ⟨by simp, fun rd hrd => ?_, fun rd hrd => .inl hrd⟩
      obtain hrd | hrd := hrd
      · obtain hrd | hrd := List.mem_append.mp hrd
        · exact .inl (.inl hrd)
        · obtain rfl := List.mem_singleton.mp hrd
          exact .inr (.inr ⟨rfl, by simp, ⟨hpos, rfl⟩, rfl⟩)
      · exact .inl (.inr hrd)
  | effect i n hit =>
    obtain ⟨rd₀, hrd₀, h⟩ := Option.bind_eq_some_iff.mp h
    obtain ⟨⟨v, dev'⟩, hv, h⟩ := Option.map_eq_some_iff.mp h
    cases h
    refine ⟨Nat.le_refl _, fun rd hrd => ?_, fun rd hrd => .inl hrd⟩
    obtain hrd | hrd := hrd
    · obtain hrd | rfl := List.mem_or_eq_of_mem_set hrd
      · exact .inl (.inl hrd)
      · exact .inr (.inl ⟨rd₀, List.mem_of_getElem? hrd₀, v, n, rfl, .inl ⟨hit, dev', hv⟩⟩)
    · exact .inl (.inr hrd)
  | settle i n e =>
    obtain ⟨rd₀, hrd₀, h⟩ := Option.bind_eq_some_iff.mp h
    obtain ⟨v, hv, h⟩ := Option.map_eq_some_iff.mp h
    have hnew : ∀ rd, rd = { rd₀ with query := v } → ∃ rd₁ ∈ x.reads, ∃ v' k,
        rd = { rd₁ with query := v' } ∧ ((∃ hit dev', rd₁.query.effect k hit x.disk.dev =
          some (v', dev')) ∨ ∃ e, rd₁.query.settle k e = some v') := fun rd hrd =>
      ⟨rd₀, List.mem_of_getElem? hrd₀, v, n, hrd, .inr ⟨e, hv⟩⟩
    split at h
    · rename_i ho
      cases h
      refine ⟨by simp, fun rd hrd => ?_, fun rd hrd => ?_⟩
      · obtain hrd | hrd := hrd
        · exact .inl (.inl (List.mem_of_mem_eraseIdx hrd))
        · obtain hrd | hrd := List.mem_append.mp hrd
          · exact .inl (.inr hrd)
          · exact .inr (.inl (hnew rd (List.mem_singleton.mp hrd)))
      · obtain hrd | hrd := List.mem_append.mp hrd
        · exact .inl hrd
        · exact .inr (List.mem_singleton.mp hrd ▸ ho)
    · cases h
      refine ⟨Nat.le_refl _, fun rd hrd => ?_, fun rd hrd => .inl hrd⟩
      obtain hrd | hrd := hrd
      · obtain hrd | hrd := List.mem_or_eq_of_mem_set hrd
        · exact .inl (.inl hrd)
        · exact .inr (.inl (hnew rd hrd))
      · exact .inl (.inr hrd)

theorem count_beside_read {hpos : 0 < size}
    (h : beside G E (.read off size hpos) x q = some (x', q')) : q.count < q'.count := by
  simp only [beside, Option.some.injEq, Prod.mk.injEq] at h
  obtain ⟨-, rfl⟩ := h
  split <;> simp [serve]

/-- Once `n` requests have come: the reads have `P`, and nothing is in flight for those that
ended. -/
structure ReadsAll (n : Nat) (P : ClientRead → Requests → Prop) (x : Inner) (q : Requests) :
    Prop where
  came : n ≤ q.count
  reads : ∀ rd, rd ∈ x.reads ∨ rd ∈ x.served → P rd q
  ended : ∀ rd ∈ x.served, rd.query.ops = []

theorem readsAll_of_eq {n : Nat} {P : ClientRead → Requests → Prop} (hr : x'.reads = x.reads)
    (hs : x'.served = x.served) (h : ReadsAll n P x q) : ReadsAll n P x' q :=
  ⟨h.came, by rw [hr, hs]; exact h.reads, by rw [hs]; exact h.ended⟩

/-- What a property of reads has to survive. -/
theorem readsAll_kept {n : Nat} {okF : Beside → Inner → Prop} {P : ClientRead → Requests → Prop}
    (hgrow : ∀ rd (q q' : Requests), q.count ≤ q'.count → P rd q → P rd q')
    (hold : ∀ b x q rd v k, okF b x → P rd q →
      ((∃ hit dev', rd.query.effect k hit x.disk.dev = some (v, dev')) ∨
        ∃ e, rd.query.settle k e = some v) → P { rd with query := v } q)
    (hnew : ∀ (q q' : Requests) rd, n ≤ q.count → rd.cid = q.count → q.count < q'.count → P rd q') :
    KeptBoth (acceptor G E) okF (ReadsAll n P) where
  grows _ _ _ hx h :=
    ⟨hx.came.trans h.1, fun rd hrd => hgrow rd _ _ h.1 (hx.reads rd hrd), hx.ended⟩
  split _ _ _ _ h := ⟨h.came, h.reads, h.ended⟩
  start w x q h := by
    have hx : ((acceptor G E).start w x).2.2 = _ := (stays_process (G := G) (E := E)).rest
    exact readsAll_of_eq (by rw [hx]) (by rw [hx]) h
  react _ _ _ _ _ _ hr h :=
    readsAll_of_eq (by rw [(react_keeps hr).2]) (by rw [(react_keeps hr).2]) h
  enter _ _ _ h := ⟨h.came, h.reads, h.ended⟩
  leave _ _ _ h := h
  aside b x q x' q' hok hs h := by
    obtain ⟨hle, hcases, hended⟩ := beside_reads_cases hs
    refine ⟨h.came.trans hle, fun rd hrd => ?_, fun rd hrd => ?_⟩
    · obtain hrd | ⟨rd₀, hrd₀, v, k, rfl, hv⟩ | ⟨hcid, hlt, -⟩ := hcases rd hrd
      · exact hgrow rd _ _ hle (h.reads rd hrd)
      · exact hgrow _ _ _ hle (hold b x q rd₀ v k hok (h.reads rd₀ (.inl hrd₀)) hv)
      · exact hnew q q' rd h.came hcid hlt
    · obtain hrd | ho := hended rd hrd
      · exact h.ended rd hrd
      · exact ho

/-- Reads bear the numbers of requests that came. -/
theorem reads_numbered : KeptBoth (acceptor G E) (fun _ _ => True)
    (ReadsAll 0 fun rd q => rd.cid < q.count) :=
  readsAll_kept (fun _ _ _ hle h => Nat.lt_of_lt_of_le h hle) (fun _ _ _ _ _ _ _ h _ => h)
    fun _ _ _ _ hcid hlt => hcid ▸ hlt

/-- The read of request `c` is for `size` bytes from `off`, and good bytes are all it gets. -/
def Getting (G : Geometry) (c off size : Nat) (good : Nat → Byte → Prop) (rd : ClientRead) : Prop :=
  rd.cid = c → rd.off = off ∧ rd.size = size ∧
    rd.query.Fetches (fun p => G.flatLoc (off + p)) size fun p => good (off + p)

theorem flatLoc_injOn (set : Set Nat) : Set.InjOn (fun p => G.flatLoc (off + p)) set := by
  intro a _ b _ h
  have := Geometry.flatLoc_injective h
  omega

theorem getting_kept : KeptBoth (acceptor G E) (fun _ x => ∀ o, good o (x.disk.dev (G.flatLoc o)))
    (ReadsAll (c + 1) fun rd _ => Getting G c off size good rd) := by
  refine readsAll_kept (fun _ _ _ _ => id) (fun _ x q rd v k hdev h hv hc => ?_)
    fun q q' rd hn hcid hlt hc => absurd (hcid.symm.trans hc) (by omega)
  obtain ⟨hoff, hsize, hf⟩ := h hc
  refine ⟨hoff, hsize, ?_⟩
  obtain ⟨hit, dev', hv⟩ | ⟨e, hv⟩ := hv
  · exact Query.fetches_effect hf (flatLoc_injOn _) (fun p _ => hdev _) hv
  · exact Query.fetches_settle hf hv

/-- What a read that came at `s` has got at `t`. -/
def GettingRecent (G : Geometry) (off size : Nat) (s t : State SubWrite Inner) : Prop :=
  ReadsAll (s.reqs.count + 1)
    (fun rd _ => Getting G s.reqs.count off size (Recent G s t) rd) t.inner t.reqs

theorem getting_step (hs : (acceptor G E).step t l = some u) {rd : ClientRead}
    (h : Getting G s.reqs.count off size (Recent G s t) rd) :
    Getting G s.reqs.count off size (Recent G s u) rd := by
  intro hc
  obtain ⟨hoff, hsize, hf⟩ := h hc
  exact ⟨hoff, hsize, Query.fetches_mono (fun p _ b hb => recent_step hb hs) hf⟩

section Run

variable {s₁ : State SubWrite Inner} {hpos : 0 < size}
  (h : Lts.Run (acceptor G E).step (RestartAccepted G E) (.initial (Inner.initial dev₀)) s)
  (hread : (acceptor G E).step s (.aside (.read off size hpos)) = some s₁)

include h hread

theorem getting_new : GettingRecent G off size s s₁ := by
  have hnum : ReadsAll 0 (fun rd q => rd.cid < q.count) s.inner s.reqs := by
    refine Lts.run_invariant (I := fun s : State SubWrite Inner =>
      ReadsAll 0 (fun rd q => rd.cid < q.count) s.inner s.reqs) h ?_ fun a l u hI _ hs =>
        keptBoth_step reads_numbered hI guarded_true hs
    exact ⟨Nat.zero_le _, by simp [State.initial, Inner.initial], by
      simp [State.initial, Inner.initial]⟩
  have hnum' := keptBoth_step reads_numbered hnum guarded_true hread
  cases Machine.step_sound hread with
  | @aside _ inner reqs hq hr =>
    have hr' : beside G E (.read off size hpos) s.inner s.reqs = some (inner, reqs) := hr
    obtain ⟨-, hcases, -⟩ := beside_reads_cases hr'
    refine ⟨count_beside_read hr', fun rd hrd => getting_step hread fun hc => ?_, hnum'.ended⟩
    obtain hrd | ⟨rd₀, hrd₀, v, k, rfl, -⟩ | ⟨-, hlt, ⟨hpos', he⟩, hquery⟩ := hcases rd hrd
    · exact absurd (hnum.reads rd hrd) (by omega)
    · exact absurd (hnum.reads rd₀ (.inl hrd₀)) (by simp only at hc; omega)
    · obtain ⟨rfl, rfl⟩ : off = rd.off ∧ size = rd.size := by simpa using he
      refine ⟨rfl, rfl, ?_⟩
      rw [hquery]
      have hmod : rd.off % G.stripeDataSz < G.stripeDataSz := Nat.mod_lt _ G.stripeDataSz_pos
      have hbase := Nat.div_add_mod' rd.off G.stripeDataSz
      refine Query.fetches_submitAll (flatLoc_injOn _) (fun v hv => ?_)
        (fun p hp => Geometry.dataRead_cover hmod hp) fun p _ => .inl rfl
      have := Geometry.dataRead_fits hmod hv
      rwa [hbase] at this

theorem getting_run (ht : Lts.Run (acceptor G E).step (RestartAccepted G E) s₁ t) :
    GettingRecent G off size s t := by
  have h₁ : Lts.Run (acceptor G E).step (RestartAccepted G E) (.initial (Inner.initial dev₀)) s₁ :=
    .tail (l := .aside (.read off size hpos)) h trivial hread
  have hdev₁ := recent_dev_step h List.prefix_rfl (fun _ => .inl rfl) hread
  refine (Lts.run_invariant (I := fun t => Lts.Run (acceptor G E).step (RestartAccepted G E)
    (.initial (Inner.initial dev₀)) t ∧ s.inner.done <+: t.inner.done ∧
      (∀ o, Recent G s t o (t.inner.disk.dev (G.flatLoc o))) ∧ GettingRecent G off size s t) ht
    ⟨h₁, prefix_step acceptor_tracing hread, hdev₁, getting_new h hread⟩ ?_).2.2.2
  rintro a l u ⟨ha, hpre, hdev, hreads⟩ hok hs
  have hgood : Guarded (fun (_ : Act) (_ : SubWrite) => True) (fun (_ : Beside) (x : Inner) =>
      ∀ o, Recent G s a o (x.disk.dev (G.flatLoc o))) a l := by
    cases l with
    | aside b => exact hdev
    | act i a => exact fun _ _ => trivial
    | _ => trivial
  have hu := keptBoth_step getting_kept hreads hgood hs
  exact ⟨.tail ha hok hs, hpre.trans (prefix_step acceptor_tracing hs), recent_dev_step ha hpre hdev hs,
    hu.came, fun rd hrd => getting_step hs (hu.reads rd hrd), hu.ended⟩

end Run

/-- Each byte of a read that neither was rejected nor failed was in the array as the read came, or a
sub-write brings it that had not ended by then. -/
theorem recent_read (G : Geometry) (E : Env) (dev₀ : Addr → Byte) (off size : Nat)
    (hpos : 0 < size) (s s₁ t : State SubWrite Inner)
    (h : Lts.Run (acceptor G E).step (RestartAccepted G E) (.initial (Inner.initial dev₀)) s)
    (hread : (acceptor G E).step s (.aside (.read off size hpos)) = some s₁)
    (ht : Lts.Run (acceptor G E).step (RestartAccepted G E) s₁ t) (rd : ClientRead)
    (hrd : rd ∈ t.inner.served) (hc : rd.cid = s.reqs.count) (hclean : rd.query.Clean) :
    ∀ p < size, Recent G s t (off + p) (rd.query.buf p) := by
  intro p hp
  have hall := getting_run h hread ht
  obtain ⟨-, -, hf⟩ := hall.reads rd (.inr hrd) hc
  exact hf.got hclean p hp (by simp [Query.Pending, hall.ended rd hrd])

/-- Reads are kept; the fifth submit fails after a hundred bytes. -/
def slowReads : Env where
  beh write i := if write then fifthFails.beh true i else .held
  junk _ _ := 0

/-- While the first strip is read a write of it fails. -/
def overtakingRun : List (Label WriteReq Act Beside) :=
  [.arrive (stripeReq fun _ => ⟨2⟩), .tick, .tick, .tick, .tick,
    .aside (.effect 0 0 fun _ => true), .aside (.settle 0 0 0)]

theorem recent_read_overtaken : ∃ s s₁ t rd,
    afterRun slowReads (overwriteRun.take 5) = some s ∧
    (acceptor smallRaid slowReads).step s (.aside (.read 0 512 (by decide))) = some s₁ ∧
    Lts.exec (acceptor smallRaid slowReads).step s₁ overtakingRun = some t ∧
    rd ∈ t.inner.served ∧ (rd.query.buf 99, rd.query.buf 100) = (⟨2⟩, ⟨1⟩) ∧
    ∀ p < 512, Recent smallRaid s t (0 + p) (rd.query.buf p) := by
  have haccept : ∀ c i, (slowReads.beh c i).Accepts := by
    intro c i
    unfold slowReads fifthFails
    dsimp only
    repeat' split
    all_goals trivial
  have hok : ∀ ls : List (Label WriteReq Act Beside), ∀ l ∈ ls, ∀ s,
      RestartAccepted smallRaid slowReads s l := by
    intro ls l _ s
    cases l with
    | tick => exact fun _ _ _ _ _ _ _ _ _ => haccept _ _
    | _ => trivial
  obtain ⟨s, hs⟩ : ∃ s, afterRun slowReads (overwriteRun.take 5) = some s :=
    Option.isSome_iff_exists.mp (by decide +kernel)
  obtain ⟨s₁, hs₁⟩ : ∃ s₁, (afterRun slowReads (overwriteRun.take 5)).bind (fun s =>
      (acceptor smallRaid slowReads).step s (.aside (.read 0 512 (by decide)))) = some s₁ :=
    Option.isSome_iff_exists.mp (by decide +kernel)
  have hcount : (afterRun slowReads (overwriteRun.take 5)).map (fun s => s.reqs.count) = some 1 := by
    decide +kernel
  have hend : ((afterRun slowReads (overwriteRun.take 5)).bind fun s =>
      ((acceptor smallRaid slowReads).step s (.aside (.read 0 512 (by decide)))).bind fun s₁ =>
        (Lts.exec (acceptor smallRaid slowReads).step s₁ overtakingRun).map fun t =>
          t.inner.served.map fun rd => (rd.cid, rd.query.rej, rd.query.bad, rd.query.buf 99,
            rd.query.buf 100)) = some [(1, 0, false, ⟨2⟩, ⟨1⟩)] := by decide +kernel
  rw [hs, Option.bind_some] at hs₁ hend
  rw [hs, Option.map_some, Option.some.injEq] at hcount
  rw [hs₁, Option.bind_some] at hend
  obtain ⟨t, ht, hserved⟩ := Option.map_eq_some_iff.mp hend
  obtain ⟨rd, hrd, he⟩ := List.map_eq_singleton_iff.mp hserved
  simp only [Prod.mk.injEq] at he
  obtain ⟨hcid, hrej, hbad, hnew, hold⟩ := he
  have hmem : rd ∈ t.inner.served := by rw [hrd]; exact .head _
  refine ⟨s, s₁, t, rd, hs, hs₁, ht, hmem, by rw [hnew, hold], ?_⟩
  exact recent_read smallRaid slowReads (fun _ => 0) 0 512 (by decide) s s₁ t
    (Lts.run_of_exec (hok _) hs) hs₁ (Lts.run_of_exec (hok _) ht) rd hmem
    (hcid.trans hcount.symm) ⟨hrej, hbad⟩

end Ublk.Raidsp
