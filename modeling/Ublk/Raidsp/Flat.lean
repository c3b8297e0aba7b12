import Ublk.Lib.SerialPrompt
import Ublk.Raidsp.Contract
import Ublk.Raidsp.Serialisation

/-!
Requests one after the other over handlers that carry out each subquery at once: the array is one
flat run of bytes, and no check of the code fails.
-/
namespace Ublk.Raidsp

open Shared Serial Acceptor

inductive Request
  | read (off size : Nat) (nonempty : 0 < size)
  | write (r : WriteReq)

/-- What one flat array makes of requests. -/
def flat (a : Nat → Byte) : List Request → (Nat → Byte) × List (List Byte)
  | [] => (a, [])
  | .read off size _ :: qs =>
    ((flat a qs).1, (List.range size).map (fun i => a (off + i)) :: (flat a qs).2)
  | .write r :: qs => flat (overlay a r.off r.size r.data) qs

/-- The bytes a client got. -/
def ClientRead.bytes (rd : ClientRead) : List Byte := (List.range rd.size).map rd.query.buf

/-- The devices as one array. -/
def logical (G : Geometry) (dev : Addr → Byte) : Nat → Byte := fun x => dev (G.flatLoc x)

/-- The call of a request and all the program does until it returns. -/
def Request.labels (G : Geometry) : Request → List (Label WriteReq Act Beside)
  | .read off size h => [.aside (.read off size h)]
  | .write r =>
    .arrive r :: List.replicate (3 * (Blocks.cut G.stripeDataSz r.off r.size).length + 1) .tick

/-- A subquery is carried out as it is submitted. -/
def Immediate (E : Env) : Prop := ∀ b i, ∃ hit, E.beh b i = .done 0 hit

variable {G : Geometry} {E : Env} {dev₀ : Addr → Byte} {w : SubWrite} {x : Inner} {r : Role}
  {q : Query} {k : Nat} {s t : State SubWrite Inner}

theorem succeeds_of_immediate (hE : Immediate E) (b : Bool) (i : Nat) : (E.beh b i).Succeeds := by
  obtain ⟨hit, h⟩ := hE b i
  rw [h]
  rfl

theorem ops_submitAll {ss : List Sub} {d : Disk} (hE : Immediate E) :
    (q.submitAll E ss d).2.1.ops = q.ops := by
  induction ss generalizing q d with
  | nil => rfl
  | cons s ss ih =>
    obtain ⟨hit, h⟩ := hE q.write d.next
    have hs : (q.submit E s d).2.1.ops = q.ops := by simp [Query.submit, h]
    rw [Query.submitAll]
    split
    · rw [ih, hs]
    · exact hs

/-- Nothing is ever in flight. -/
theorem ended_rule (hE : Immediate E) : Query.Rule E (fun _ => True) fun q => q.ops = [] where
  submit _ _ _ _ := ops_submitAll hE
  effect _ _ _ _ _ _ he h := (Query.effect_keeps he).2.2.2.2.1.mpr h
  settle _ _ _ _ _ he h := absurd h (Query.settle_keeps he).1

theorem acceptor_prompt (hE : Immediate E) :
    Prompt (acceptor G E) (SubWrite.Have fun q => q.ops = []) where
  start _ _ h := ⟨process_accepted (succeeds_of_immediate hE),
    SubWrite.not_busy.mpr (have_process (ended_rule hE) h)⟩
  split _ _ _ _ h := have_split (ended_rule hE) h

theorem through_eq (w : SubWrite) (x : Inner) :
    (through (acceptor G E) x w).done = x.done ++ [(process G E w x).2.1] ∧
      (through (acceptor G E) x w).reads = x.reads ∧
      (through (acceptor G E) x w).served = x.served := by
  have h : (process G E w x).2.2 = _ := (stays_process (G := G) (E := E)).rest
  change (process G E w x).2.2.done ++ [(process G E w x).2.1] = _ ∧
    (process G E w x).2.2.reads = _ ∧ (process G E w x).2.2.served = _
  rw [h]
  exact ⟨rfl, rfl, rfl⟩

/-- Sub-writes end in the order they are made. -/
theorem done_foldl (ws : List SubWrite) (x : Inner) :
    ∃ vs, (ws.foldl (through (acceptor G E)) x).done = x.done ++ vs ∧
      vs.map SubWrite.toSlice = ws.map SubWrite.toSlice ∧
      (ws.foldl (through (acceptor G E)) x).reads = x.reads ∧
      (ws.foldl (through (acceptor G E)) x).served = x.served := by
  induction ws generalizing x with
  | nil => exact ⟨[], by simp, rfl, rfl, rfl⟩
  | cons w ws ih =>
    obtain ⟨hd, hr, hs⟩ := through_eq (G := G) (E := E) w x
    obtain ⟨vs, hvs, hmap, hreads, hserved⟩ := ih (through (acceptor G E) x w)
    refine ⟨(process G E w x).2.1 :: vs, ?_, ?_, hreads.trans hr, hserved.trans hs⟩
    · rw [List.foldl_cons, hvs, hd, List.append_assoc]
      rfl
    · rw [List.map_cons, List.map_cons, hmap]
      exact congrArg (· :: _) (slice_of_request stays_process.request)

/-- Bytes that agree wherever sub-writes cover them. -/
theorem applyAll_covered {ws : List SubWrite} {old : Nat → Byte} {i : Nat} {v : Byte}
    (h : ∀ w ∈ ws, w.off ≤ i → i < w.off + w.size → w.src (i - w.off) = v) :
    applyAll old ws i = if ∃ w ∈ ws, w.off ≤ i ∧ i < w.off + w.size then v else old i := by
  induction ws generalizing old with
  | nil => simp [applyAll]
  | cons w ws ih =>
    have hcons : applyAll old (w :: ws) = applyAll (overlay old w.off w.size w.src) ws := rfl
    rw [hcons, ih fun w' hw' => h w' (.tail _ hw')]
    by_cases hw : w.off ≤ i ∧ i < w.off + w.size
    · have hv : overlay old w.off w.size w.src i = v :=
        (if_pos hw).trans (h w (.head _) hw.1 hw.2)
      have hex : ∃ w' ∈ w :: ws, w'.off ≤ i ∧ i < w'.off + w'.size := ⟨w, .head _, hw⟩
      rw [hv, if_pos hex]
      split <;> rfl
    · have hv : overlay old w.off w.size w.src i = old i := if_neg hw
      simp [hv, hw]

/-- The parts of a write in one stripe lay its bytes over the old ones. -/
theorem applyAll_parts {ws : List SubWrite} {old : Nat → Byte} {r : WriteReq} {c i : Nat}
    (hws : ws.map SubWrite.toSlice = (Blocks.cut G.stripeDataSz r.off r.size).map (r.slice c))
    (hi : i < G.stripeDataSz) : applyAll old (ws.filter fun w => w.stripe = k) i =
      if r.off ≤ k * G.stripeDataSz + i ∧ k * G.stripeDataSz + i < r.off + r.size then
        r.data (k * G.stripeDataSz + i - r.off) else old i := by
  have hpart : ∀ w ∈ ws, ∃ p ∈ Blocks.cut G.stripeDataSz r.off r.size,
      w.toSlice = r.slice c p := by
    intro w hw
    have hmem := List.mem_map_of_mem (f := SubWrite.toSlice) hw
    rw [hws] at hmem
    obtain ⟨p, hp, he⟩ := List.mem_map.mp hmem
    exact ⟨p, hp, he.symm⟩
  rw [@applyAll_covered _ old i (r.data (k * G.stripeDataSz + i - r.off))]
  · refine if_congr ⟨?_, fun hin => ?_⟩ rfl rfl
    · rintro ⟨w, hw, hlo, hhi⟩
      obtain ⟨hw, hk⟩ := List.mem_filter.mp hw
      obtain ⟨p, hp, he⟩ := hpart w hw
      obtain ⟨hat, hend, -, -⟩ := Blocks.mem_cut G.stripeDataSz_pos hp
      rw [he] at hk hlo hhi
      have hk : p.id = k := of_decide_eq_true hk
      have hlo : p.inner ≤ i := hlo
      have hhi : i < p.inner + p.len := hhi
      subst hk
      omega
    · obtain ⟨p, hp, hlo, hhi⟩ := @Blocks.cut_cover _ r.off r.size
        (k * G.stripeDataSz + i - r.off) G.stripeDataSz_pos (by omega)
      obtain ⟨hat, -, hfit, -⟩ := Blocks.mem_cut G.stripeDataSz_pos hp
      obtain ⟨w, hw, he⟩ := List.mem_map.mp (hws ▸ List.mem_map_of_mem (f := r.slice c) hp)
      have hrow : k * G.stripeDataSz + i = p.id * G.stripeDataSz +
          (p.inner + (k * G.stripeDataSz + i - r.off - p.pos)) := by omega
      have hk : p.id = k := by
        have hlt : p.inner + (k * G.stripeDataSz + i - r.off - p.pos) < G.stripeDataSz := by omega
        rw [← @Blocks.div_block _ p.id _ hlt, ← hrow, Blocks.div_block hi]
      subst hk
      refine ⟨w, List.mem_filter.mpr ⟨hw, ?_⟩, ?_⟩
      · rw [he]
        exact decide_eq_true rfl
      · rw [he]
        change p.inner ≤ i ∧ i < p.inner + p.len
        omega
  · intro w hw hlo hhi
    obtain ⟨hw, hk⟩ := List.mem_filter.mp hw
    obtain ⟨p, hp, he⟩ := hpart w hw
    obtain ⟨hat, -, -, -⟩ := Blocks.mem_cut G.stripeDataSz_pos hp
    rw [he] at hk hlo hhi ⊢
    have hk : p.id = k := of_decide_eq_true hk
    have hlo : p.inner ≤ i := hlo
    subst hk
    change r.data (p.pos + (i - p.inner)) = _
    congr 1
    omega

/-- After the requests `qs`, each of which has finished. -/
structure After (G : Geometry) (E : Env) (dev₀ : Addr → Byte) (qs : List Request)
    (s : State SubWrite Inner) : Prop where
  run : Lts.Run (acceptor G E).step Succeeding (.initial (Inner.initial dev₀)) s
  calm : Calm s
  issue : s.issue = none
  reads : s.inner.reads = []
  count : s.reqs.count = qs.length
  content : logical G s.inner.disk.dev = (flat (logical G dev₀) qs).1
  bytes : s.inner.served.map ClientRead.bytes = (flat (logical G dev₀) qs).2

theorem flat_append {a : Nat → Byte} {qs qs' : List Request} : flat a (qs ++ qs') =
    ((flat (flat a qs).1 qs').1, (flat a qs).2 ++ (flat (flat a qs).1 qs').2) := by
  induction qs generalizing a with
  | nil => rfl
  | cons q qs ih =>
    cases q with
    | read off size h => simp only [List.cons_append, flat, ih]
    | write r => simp only [List.cons_append, flat, ih]

theorem succeeding_labels {q : Request} {l : Label WriteReq Act Beside} (h : l ∈ q.labels G)
    (s : State SubWrite Inner) : Succeeding s l := by
  cases q with
  | read off size hpos =>
    obtain rfl := List.mem_singleton.mp h
    exact trivial
  | write r =>
    rcases List.mem_cons.mp h with rfl | h
    · exact trivial
    · obtain rfl := List.eq_of_mem_replicate h
      exact trivial

/-- What a read of data got. -/
theorem buf_dataRead (hE : Immediate E) {buf : Nat → Byte} {d : Disk} {off size p : Nat}
    (hp : p < size) :
    ((Query.read buf).submitAll E
      (G.dataRead (off / G.stripeDataSz) (off % G.stripeDataSz) size) d).2.1.buf p =
        d.dev (G.flatLoc (off + p)) := by
  have hmod := Nat.mod_lt off G.stripeDataSz_pos
  have hoff : off / G.stripeDataSz * G.stripeDataSz + off % G.stripeDataSz = off :=
    Nat.div_add_mod' off _
  have hfits : ∀ s ∈ G.dataRead (off / G.stripeDataSz) (off % G.stripeDataSz) size,
      s.Fits (fun p => G.flatLoc (off + p)) size := by
    intro s hs
    have := Geometry.dataRead_fits hmod hs
    rwa [hoff] at this
  have hinj : Set.InjOn (fun p => G.flatLoc (off + p)) (Set.Iio size) :=
    fun i _ j _ he => Nat.add_left_cancel (Geometry.flatLoc_injective he)
  have hfollows := @Query.follows_submitAll E (Query.read buf) _ d _ size (fun _ => False)
    (fun _ => True) (Query.follows_read buf) hfits hinj
    fun _ p hlt _ => .inr (Geometry.dataRead_cover hmod hlt)
  have hclean := (@Query.clean_submitAll E (Query.read buf)
    (G.dataRead (off / G.stripeDataSz) (off % G.stripeDataSz) size) d
    (succeeds_of_immediate hE _) ⟨rfl, rfl⟩).2
  rw [Query.agrees_of_ended hfollows hclean (ops_submitAll hE) hp trivial,
    Query.dev_submitAll_of_read rfl]

theorem after_read {qs : List Request} {off size : Nat} {hpos : 0 < size} (hE : Immediate E)
    (h : After G E dev₀ qs s) : ∃ t, Lts.exec (acceptor G E).step s
      ((Request.read off size hpos).labels G) = some t ∧
        After G E dev₀ (qs ++ [.read off size hpos]) t := by
  have hq : s.Quiet := ⟨h.calm.frames, h.issue, h.calm.alive⟩
  obtain ⟨q, hqdef⟩ : ∃ q, q = (Query.read (E.junk s.reqs.count)).submitAll E
      (G.dataRead (off / G.stripeDataSz) (off % G.stripeDataSz) size) s.inner.disk := ⟨_, rfl⟩
  have hops : q.2.1.ops = [] := hqdef ▸ ops_submitAll hE
  have hdev : q.2.2.dev = s.inner.disk.dev := hqdef ▸ Query.dev_submitAll_of_read rfl
  have hbuf : ∀ p < size, q.2.1.buf p = logical G s.inner.disk.dev (off + p) :=
    fun p hp => hqdef ▸ buf_dataRead hE hp
  obtain ⟨reqs, hreqs⟩ : ∃ reqs, reqs = (((s.reqs.create.share s.reqs.count).setErr s.reqs.count
      q.2.1.err).drop s.reqs.count).returned s.reqs.count q.1 := ⟨_, rfl⟩
  have hstep : (acceptor G E).step s (.aside (.read off size hpos)) = some { s with
      inner := { s.inner with
        disk := q.2.2, served := s.inner.served ++ [⟨s.reqs.count, off, size, q.2.1⟩] }
      reqs } := by
    simp only [Machine.step, if_pos hq, acceptor, beside, ← hqdef, hops, if_true, serve,
      Option.map_some, hreqs]
  have hrun : Lts.Run (acceptor G E).step Succeeding s _ :=
    .tail .refl (succeeding_labels (G := G) (q := .read off size hpos) (.head _) s) hstep
  refine ⟨_, by simp [Request.labels, Lts.exec, hstep], Lts.run_trans h.run hrun,
    ⟨h.calm.unlocked, h.calm.pending, h.calm.active, h.calm.frames, h.calm.alive⟩, h.issue,
    h.reads, ?_, ?_, ?_⟩
  · simp [hreqs, h.count]
  · rw [flat_append, ← h.content]
    exact congrArg (logical G) hdev
  · rw [flat_append, ← h.content, ← h.bytes, List.map_append]
    congr 1
    refine congrArg (fun x => [x]) (List.map_congr_left fun p hp => ?_)
    exact hbuf p (List.mem_range.mp hp)

theorem slices_split {r : WriteReq} {c : Nat} : (split G r c x).1.map SubWrite.toSlice =
    (Blocks.cut G.stripeDataSz r.off r.size).map (r.slice c) := by
  refine List.ext_getElem? fun i => ?_
  simp only [split, List.getElem?_map, List.getElem?_mapIdx, Option.map_map]
  rfl

/-- What the sub-writes of a stripe that is at rest have left. -/
theorem logical_of_run (hE : Immediate E)
    (h : Lts.Run (acceptor G E).step Succeeding (.initial (Inner.initial dev₀)) s) (hc : Calm s)
    (a : Nat) : logical G s.inner.disk.dev a = applyAll (dataOf G dev₀ (a / G.stripeDataSz))
      (s.inner.log (a / G.stripeDataSz)) (a % G.stripeDataSz) :=
  (serialised_run (succeeds_of_immediate hE) h).data _ (hc.unlocked _) _
    (Nat.mod_lt _ G.stripeDataSz_pos)

theorem after_write {qs : List Request} {r : WriteReq} (hE : Immediate E)
    (h : After G E dev₀ qs s) : ∃ t, Lts.exec (acceptor G E).step s
      ((Request.write r).labels G) = some t ∧ After G E dev₀ (qs ++ [.write r]) t := by
  obtain ⟨t, ht, hcalm, hissue, hcount, hinner⟩ :=
    exec_request (acceptor_prompt hE) acceptor_keyed h.calm h.issue (r := r)
  have hlen : ((acceptor G E).split r s.reqs.count s.inner).1.length =
      (Blocks.cut G.stripeDataSz r.off r.size).length := by
    have hmap := congrArg List.length (slices_split (G := G) (r := r) (x := s.inner)
      (c := s.reqs.count))
    rwa [List.length_map, List.length_map] at hmap
  rw [hlen] at ht
  have hrun : Lts.Run (acceptor G E).step Succeeding (.initial (Inner.initial dev₀)) t :=
    Lts.run_trans h.run (Lts.run_of_exec
      (fun l hl s => succeeding_labels (G := G) (q := .write r) hl s) ht)
  obtain ⟨vs, hdone, hslices, hreads, hserved⟩ := done_foldl (G := G) (E := E)
    (split G r s.reqs.count s.inner).1 (split G r s.reqs.count s.inner).2
  have hinner : t.inner = (split G r s.reqs.count s.inner).1.foldl (through (acceptor G E))
      (split G r s.reqs.count s.inner).2 := hinner
  rw [← hinner] at hdone hreads hserved
  refine ⟨t, ht, hrun, hcalm, hissue, hreads.trans h.reads, ?_, ?_, ?_⟩
  · simp [hcount, h.count]
  · rw [flat_append, ← h.content]
    funext a
    have hlog : t.inner.log (a / G.stripeDataSz) = s.inner.log (a / G.stripeDataSz) ++
        vs.filter fun w => w.stripe = a / G.stripeDataSz := by
      rw [Inner.log, hdone, List.filter_append]
      rfl
    have hall : ∀ old ws ws', applyAll old (ws ++ ws') = applyAll (applyAll old ws) ws' :=
      fun old ws ws' => List.foldl_append
    rw [logical_of_run hE hrun hcalm, hlog, hall,
      applyAll_parts (hslices.trans slices_split) (Nat.mod_lt _ G.stripeDataSz_pos),
      ← logical_of_run hE h.run h.calm, Nat.div_add_mod']
    rfl
  · rw [flat_append, hserved]
    exact h.bytes.trans (List.append_nil _).symm

/-- What a request asks of its caller: whole sectors with room behind them, and a buffer at whole
words. -/
def Request.Aligned (G : Geometry) : Request → Prop
  | .read off size _ => Checked.Aligned G off size
  | .write r => Checked.Aligned G r.off r.size ∧ 8 ∣ r.addr

/-- No check of the code fails for the request, wherever buffers and chunks of memory at whole words
lie and whichever of its stripes have a coherent parity. -/
def Request.Passes (G : Geometry) : Request → Prop
  | .read off size _ => ∀ addr, Checked.read G off ⟨addr, size⟩ =
      some (G.dataRead (off / G.stripeDataSz) (off % G.stripeDataSz) size)
  | .write r =>
    Checked.split G r.off ⟨r.addr, r.size⟩ = some
      (divRoundUp (r.off + r.size) G.stripeDataSz, Blocks.cut G.stripeDataSz r.off r.size) ∧
    ∀ c, ∀ p ∈ Blocks.cut G.stripeDataSz r.off r.size, ∀ w : SubWrite, w.toSlice = r.slice c p →
      ∀ chunk nr, 8 ∣ chunk → divRoundUp (r.off + r.size) G.stripeDataSz ≤ nr →
      (∀ coherent, Checked.process G nr chunk coherent w = some (firstSubs G w coherent)) ∧
      Checked.rqdDone G chunk w = some (if w.coherent then G.parityRead w.stripe G.stripSz
        else G.dataWrite w.stripe w.off w.size ++ G.parityWrite w.stripe 0 G.stripSz) ∧
      Checked.rpqDone G chunk w = some
        (G.dataWrite w.stripe w.off w.size ++ G.parityWrite w.stripe 0 G.stripSz) ∧
      Checked.writeDone nr w = some ()

theorem passes_of_aligned {q : Request} (hb : Checked.Built G) (h : q.Aligned G) : q.Passes G := by
  cases q with
  | read off size hpos => exact fun addr => Checked.read_eq hb h
  | write r =>
    obtain ⟨ha, haddr⟩ := h
    refine ⟨Checked.split_eq ha, fun c p hp w hw chunk nr hchunk hnr => ?_⟩
    have hadm := Checked.admissible_of_mem ha haddr hp hw
    have hstripe : w.stripe < nr := by
      refine Nat.lt_of_lt_of_le ?_ hnr
      obtain ⟨hat, hend, -, hpos⟩ := Blocks.mem_cut G.stripeDataSz_pos hp
      have hle : r.off + r.size ≤ divRoundUp (r.off + r.size) G.stripeDataSz * G.stripeDataSz :=
        Geometry.le_divRoundUp G.stripeDataSz_pos
      rw [hw]
      exact Nat.lt_of_mul_lt_mul_right (a := G.stripeDataSz)
        (show p.id * G.stripeDataSz < _ by omega)
    refine ⟨fun coherent => Checked.process_eq hadm hb hchunk hstripe,
      Checked.rqdDone_eq hadm hb hchunk, Checked.rpqDone_eq hadm hb hchunk, ?_⟩
    rw [Checked.writeDone, Words.expects, if_pos hstripe]

theorem after_requests {qs : List Request} (hE : Immediate E) (dev₀ : Addr → Byte) :
    ∃ s, Lts.exec (acceptor G E).step (.initial (Inner.initial dev₀))
      (qs.flatMap (Request.labels G)) = some s ∧ After G E dev₀ qs s := by
  induction qs using List.reverseRecOn with
  | nil =>
    have hcalm : Calm (State.initial (J := SubWrite) (Inner.initial dev₀)) :=
      ⟨by simp [State.initial], rfl, rfl, rfl, rfl⟩
    exact ⟨_, rfl, .refl, hcalm, rfl, rfl, rfl, rfl, rfl⟩
  | append_singleton qs q ih =>
    obtain ⟨s, hs, hafter⟩ := ih
    obtain ⟨t, ht, hafter'⟩ : ∃ t, Lts.exec (acceptor G E).step s (q.labels G) = some t ∧
        After G E dev₀ (qs ++ [q]) t := by
      cases q with
      | read off size hpos => exact after_read hE hafter
      | write r => exact after_write hE hafter
    refine ⟨t, ?_, hafter'⟩
    rw [List.flatMap_append, Lts.exec_append, hs]
    simpa using ht

/-- Over handlers that are arrays of bytes and succeed at once, aligned requests one after the other
are those of one array: no check fails, each request returns 0 without an error, reads get the bytes
of the array and writes change those alone. -/
theorem refines_flat (G : Geometry) (E : Env) (dev₀ : Addr → Byte) (qs : List Request)
    (hE : Immediate E) (hb : Checked.Built G) (hq : ∀ q ∈ qs, q.Aligned G) :
    (∀ q ∈ qs, q.Passes G) ∧ ∃ s, Lts.exec (acceptor G E).step (.initial (Inner.initial dev₀))
        (qs.flatMap (Request.labels G)) = some s ∧ s.Quiet ∧ s.reqs.count = qs.length ∧
      (∀ c < qs.length, (s.reqs.req c).ret = some 0 ∧ (s.reqs.req c).err = 0 ∧
        (s.reqs.req c).runs = 1) ∧
      s.inner.served.map ClientRead.bytes = (flat (logical G dev₀) qs).2 ∧
      logical G s.inner.disk.dev = (flat (logical G dev₀) qs).1 := by
  refine ⟨fun q hmem => passes_of_aligned hb (hq q hmem), ?_⟩
  obtain ⟨s, hs, h⟩ := @after_requests G E qs hE dev₀
  have hquiet : s.Quiet := ⟨h.calm.frames, h.issue, h.calm.alive⟩
  have hser := serialised_run (succeeds_of_immediate hE) h.run
  refine ⟨s, hs, hquiet, h.count, fun c hc => ?_, h.bytes, h.content⟩
  have hlt : c < s.reqs.count := h.count ▸ hc
  have hruns := (hser.rest hquiet h.calm.active h.reads).2 c hlt
  obtain ⟨herr, hret⟩ := hser.told c hlt (by omega)
  exact ⟨hret, herr, hruns⟩

theorem two_sectors : 0 < 1024 := by decide

theorem four_sectors : 0 < 2048 := by decide

/-- A write across two stripes, and a read of both. -/
def acrossStripes : List Request :=
  [.write ⟨512, 1024, 8, fun i => ⟨BitVec.ofNat 8 i⟩, two_sectors⟩, .read 0 2048 four_sectors]

theorem refines_flat_acrossStripes : (∀ q ∈ acrossStripes, q.Passes smallRaid) ∧
    ∃ s, Lts.exec (acceptor smallRaid allDone).step (.initial (Inner.initial fun _ => 0))
        (acrossStripes.flatMap (Request.labels smallRaid)) = some s ∧ s.reqs.count = 2 ∧
      s.inner.served.map ClientRead.bytes =
        (flat (logical smallRaid fun _ => 0) acrossStripes).2 := by
  have haligned : ∀ q ∈ acrossStripes, q.Aligned smallRaid := by
    intro q hq
    rcases List.mem_cons.mp hq with rfl | hq
    · exact ⟨⟨by decide, by decide, by decide, by decide⟩, by decide⟩
    · obtain rfl := List.mem_singleton.mp hq
      exact ⟨by decide, by decide, by decide, by decide⟩
  obtain ⟨hpass, s, hs, -, hcount, -, hbytes, -⟩ := refines_flat smallRaid allDone (fun _ => 0)
    acrossStripes (fun _ _ => ⟨_, rfl⟩) (show Checked.stripeSz smallRaid ≠ 0 by decide) haligned
  exact ⟨hpass, s, hs, hcount, hbytes⟩

end Ublk.Raidsp
