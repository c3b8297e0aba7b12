import Ublk.Raid1.Backend

/-!
Mirrors under requests that each finish before the next one: one array of bytes at offsets of 64
bits, with the parts of the reads shared out evenly.
-/
namespace Ublk.Raid1

open Words

/-- A handler with a byte at each offset of 64 bits. Of a request that fails nothing is said. -/
structure Mirror where
  State : Type
  bytes : State → Nat → Byte
  read : State → Nat → Span → Option ((Nat → Byte) × State)
  write : State → Nat → Span → (Nat → Byte) → Option State
  read_bytes : ∀ s off v got t, Fits off v → read s off v = some (got, t) →
    (∀ i < v.len, got i = bytes s (wrap (off + i))) ∧ bytes t = bytes s
  write_bytes : ∀ s off v src t, Fits off v → write s off v src = some t →
    bytes t = store (bytes s) off v.len src

abbrev Mirrors (C : Config) : Type 1 := Fin C.n → Mirror

structure Seq (C : Config) (ms : Mirrors C) where
  mirrors : ∀ h, (ms h).State
  /-- `next_hid_` -/
  next : Fin C.n
  /-- History: the parts of reads that each mirror was sent. -/
  sent : Fin C.n → Nat

namespace Seq

variable {C : Config} (ms : Mirrors C)

/-- Read the parts one after the other. -/
def readAll (v : Span) : List (Sub × Fin C.n) → Seq C ms → (Nat → Byte) →
    Option ((Nat → Byte) × Seq C ms)
  | [], s, buf => some (buf, s)
  | (p, next) :: ss, s, buf =>
    if h : p.hid < C.n then
      ((ms ⟨p.hid, h⟩).read (s.mirrors _) p.off ⟨v.addr + p.pos, p.len⟩).bind fun r =>
        readAll v ss ⟨Function.update s.mirrors _ r.2, next,
          Function.update s.sent ⟨p.hid, h⟩ (s.sent ⟨p.hid, h⟩ + 1)⟩
          (overlay buf p.pos p.len r.1)
    else none

/-- Write the copies one after the other. -/
def writeAll (v : Span) (src : Nat → Byte) : List (Sub × Fin C.n) → Seq C ms → Option (Seq C ms)
  | [], s => some s
  | (p, next) :: ss, s =>
    if h : p.hid < C.n then
      ((ms ⟨p.hid, h⟩).write (s.mirrors _) p.off v src).bind fun u =>
        writeAll v src ss ⟨Function.update s.mirrors _ u, next, s.sent⟩
    else none

/-- `raid1::backend::process`, with what a read returns. -/
def process (s : Seq C ms) : Transfer → Option (List (List Byte) × Seq C ms)
  | .read off v => (route C s.next false off v).bind fun ss =>
      (readAll ms v ss s fun _ => 0).map fun r => ([(List.range v.len).map r.1], r.2)
  | .write off v src => (route C s.next true off v).bind fun ss =>
      (writeAll ms v src ss s).map fun t => ([], t)

/-- Requests one after the other as long as they succeed, and what the reads return. -/
def serve (s : Seq C ms) : List Transfer → Option (List (List Byte) × Seq C ms)
  | [] => some ([], s)
  | r :: reqs => (process ms s r).bind fun x =>
      (serve x.2 reqs).map fun y => (x.1 ++ y.1, y.2)

end Seq

/-- What an array with a byte at each offset of 64 bits makes of requests. -/
def flat (a : Nat → Byte) : List Transfer → List (List Byte) × (Nat → Byte)
  | [] => ([], a)
  | .read off v :: reqs => ((offsets off v.len).map a :: (flat a reqs).1, (flat a reqs).2)
  | .write off v src :: reqs => flat (store a off v.len src) reqs

def fits : Transfer → Prop
  | .read off v => Fits off v
  | .write off v _ => Fits off v

variable {C : Config} {ms : Mirrors C} {s t : Seq C ms} {off fuel rb pos : Nat} {v : Span}
  {hid : Fin C.n} {p : Sub} {ss : List (Sub × Fin C.n)} {a buf got src : Nat → Byte}
  {reqs : List Transfer} {outs : List (List Byte)}

/-- Requests that end below `2 ^ 64` are those of a flat array. -/
theorem flat_eq_of_sized (h : ∀ r ∈ reqs, r.Sized) : flat a reqs = Device.flat a reqs := by
  induction reqs generalizing a with
  | nil => rfl
  | cons r reqs ih =>
    have hr := h r (.head _)
    have ih := fun a => @ih a fun r hr => h r (.tail _ hr)
    cases r with
    | read off v =>
      rw [flat, Device.flat, ih, offsets_eq (Nat.le_of_lt hr.room), List.map_map]
      rfl
    | write off v src =>
      rw [flat, Device.flat, ih, store_eq le_rfl hr.room]

/-- A part of a read belongs where it lies in the buffer. -/
structure Part (C : Config) (off : Nat) (p : Sub) : Prop where
  hid : p.hid < C.n
  off : p.off = wrap (off + p.pos)

/-- The parts go to the handlers in turn, from `hid` on. -/
def Turns (C : Config) : Fin C.n → List (Sub × Fin C.n) → Prop
  | _, [] => True
  | hid, s :: ss => s.1.hid = hid ∧ s.2 = C.next hid ∧ Turns C (C.next hid) ss

/-- The parts of a read follow each other in the buffer, each where it belongs. -/
theorem chunks_parts (hlen : v.len < 2 ^ 64) (hrb : rb ≤ v.len) (hfuel : v.len - rb < fuel) :
    ∃ ss, chunks C off v fuel rb hid = some ss ∧ Consecutive rb (ss.map Prod.fst) v.len ∧
      Turns C hid ss ∧ ∀ s ∈ ss, Part C off s.1 := by
  induction fuel generalizing rb hid with
  | zero => omega
  | succ fuel ih =>
    rw [chunks]
    have hpos := C.pos
    by_cases hlt : rb < v.len
    · rw [if_pos hlt, sub_of_le hrb hlen]
      generalize hk : min C.readStripSz (v.len - rb) = k
      have hsub : v.subquery rb k = some ⟨v.addr + rb, k⟩ :=
        Span.subquery_eq (by omega) (by omega) hlen
      obtain ⟨ss, hss, hc, hturns, hall⟩ := @ih (rb + k) (C.next hid) (by omega) (by omega)
      dsimp only
      rw [hsub, wrap_of_lt (by omega : rb + k < 2 ^ 64), hss]
      refine ⟨_, rfl, ⟨rfl, ?_, hc⟩, ⟨rfl, rfl, hturns⟩, ?_⟩
      · dsimp only
        omega
      · intro s hs
        rcases List.mem_cons.mp hs with rfl | hs
        · exact ⟨hid.isLt, rfl⟩
        · exact hall s hs
    · rw [if_neg hlt]
      refine ⟨[], rfl, ?_, trivial, by simp⟩
      change rb = v.len
      omega

theorem fits_of_part (hp : Part C off p) (hlen : 0 < p.len) (hword : p.len < 2 ^ 64) :
    Fits p.off ⟨v.addr + p.pos, p.len⟩ := by
  refine ⟨?_, hlen, hword⟩
  rw [hp.off]
  exact Nat.mod_lt _ (by decide)

/-- The mirrors hold the bytes `a`. -/
def Holds (s : Seq C ms) (a : Nat → Byte) : Prop := ∀ h, (ms h).bytes (s.mirrors h) = a

theorem holds_update {h : Fin C.n} {u : (ms h).State} {next : Fin C.n} {sent : Fin C.n → Nat}
    (hs : Holds s a) (hu : (ms h).bytes u = a) :
    @Holds C ms ⟨Function.update s.mirrors h u, next, sent⟩ a := by
  intro h'
  by_cases he : h' = h
  · subst he
    simpa using hu
  · simpa [Function.update_of_ne he] using hs h'

/-- Every mirror was sent as many parts, and those in front of the next one had one more. -/
def Level (s : Seq C ms) : Prop := ∃ q, ∀ h, s.sent h = q + if h < s.next then 1 else 0

theorem next_of_lt (h : hid.val + 1 < C.n) : (C.next hid).val = hid.val + 1 := Nat.mod_eq_of_lt h

theorem next_of_last (h : hid.val + 1 = C.n) : (C.next hid).val = 0 := by
  change (hid.val + 1) % C.n = 0
  rw [h, Nat.mod_self]

theorem level_turn {hid next : Fin C.n} {mirrors : ∀ h, (ms h).State} (h : Level s)
    (hhid : hid = s.next) (hturn : next = C.next s.next) :
    @Level C ms ⟨mirrors, next, Function.update s.sent hid (s.sent hid + 1)⟩ := by
  obtain ⟨q, hq⟩ := h
  subst hhid hturn
  have hself := hq s.next
  rw [if_neg (lt_irrefl _)] at hself
  by_cases hlast : s.next.val + 1 = C.n
  · -- the round is complete
    refine ⟨q + 1, fun h => ?_⟩
    dsimp only
    have hnot : ¬ h < C.next s.next := by
      rw [Fin.lt_def, next_of_last hlast]
      omega
    rw [if_neg hnot]
    by_cases he : h = s.next
    · subst he
      simp [hself]
    · have hlt : h < s.next := by
        have := h.isLt
        have : h.val ≠ s.next.val := fun hv => he (Fin.ext hv)
        rw [Fin.lt_def]
        omega
      rw [Function.update_of_ne he, hq, if_pos hlt]
  · have hnext : (C.next s.next).val = s.next.val + 1 :=
      next_of_lt (by have := s.next.isLt; omega)
    refine ⟨q, fun h => ?_⟩
    dsimp only
    by_cases he : h = s.next
    · subst he
      rw [Function.update_self, hself, if_pos (by rw [Fin.lt_def, hnext]; omega)]
    · have hiff : h < C.next s.next ↔ h < s.next := by
        have : h.val ≠ s.next.val := fun hv => he (Fin.ext hv)
        rw [Fin.lt_def, Fin.lt_def, hnext]
        omega
      rw [Function.update_of_ne he, hq]
      simp only [hiff]

theorem readAll_holds (hword : v.len < 2 ^ 64) (hparts : ∀ p ∈ ss, Part C off p.1)
    (hc : Consecutive pos (ss.map Prod.fst) v.len) (hturns : Turns C s.next ss) (hs : Holds s a)
    (hl : Level s) (hr : Seq.readAll ms v ss s buf = some (got, t)) :
    Holds t a ∧ Level t ∧ ∀ i < v.len, got i = if i < pos then buf i else a (wrap (off + i)) := by
  induction ss generalizing pos s buf with
  | nil =>
    cases hr
    exact ⟨hs, hl, fun i hi => (if_pos (show i < pos from hc ▸ hi)).symm⟩
  | cons x ss ih =>
    obtain ⟨p, next⟩ := x
    have hp : Part C off p := hparts _ (.head _)
    have hbounds := bounds_of_consecutive hc
    obtain ⟨hpos, hlen, hc⟩ := hc
    obtain ⟨hhid, hnext, hturns⟩ := hturns
    have hpos : p.pos = pos := hpos
    have hlen : 0 < p.len := hlen
    have hnext : next = C.next s.next := hnext
    rw [Seq.readAll, dif_pos hp.hid] at hr
    obtain ⟨⟨piece, u⟩, hread, hr⟩ := Option.bind_eq_some_iff.mp hr
    have hself : (⟨p.hid, hp.hid⟩ : Fin C.n) = s.next := Fin.ext hhid
    have hends := (hbounds.2 p (.head _)).2
    obtain ⟨hpiece, hu⟩ := (ms _).read_bytes _ _ _ _ _
      (fits_of_part (v := v) hp hlen (by omega)) hread
    obtain ⟨hh, hl', hgot⟩ := ih (fun q hq => hparts q (.tail _ hq)) hc (by rw [hnext]; exact hturns)
      (holds_update hs (hu.trans (hs _)))
      (level_turn hl hself hnext) hr
    refine ⟨hh, hl', fun i hi => ?_⟩
    rw [hgot i hi]
    by_cases hlo : i < pos
    · rw [if_pos hlo, if_pos (by omega), overlay, if_neg (by omega)]
    · rw [if_neg hlo]
      by_cases hhi : i < pos + p.len
      · rw [if_pos hhi, overlay, if_pos (by omega)]
        refine (hpiece (i - p.pos) (by dsimp only; omega)).trans ?_
        rw [hs, hp.off]
        congr 1
        unfold wrap
        omega
      · exact if_neg hhi

/-- The mirrors that have their copy hold the bytes with it. -/
theorem writeAll_holds (hv : Fits off v) {n : Nat}
    (hss : ss.map (fun x => x.1.hid) = List.range' n (C.n - n))
    (hoff : ∀ x ∈ ss, x.1.off = off ∧ x.2 = s.next)
    (hs : ∀ h : Fin C.n, (ms h).bytes (s.mirrors h) = if h.val < n then store a off v.len src else a)
    (hw : Seq.writeAll ms v src ss s = some t) :
    Holds t (store a off v.len src) ∧ t.next = s.next ∧ t.sent = s.sent := by
  induction ss generalizing n s with
  | nil =>
    cases hw
    refine ⟨fun h => ?_, rfl, rfl⟩
    have hlen := congrArg List.length hss
    simp only [List.map_nil, List.length_nil, List.length_range'] at hlen
    rw [hs h, if_pos (by have := h.isLt; omega)]
  | cons x ss ih =>
    obtain ⟨p, next⟩ := x
    obtain ⟨hpoff, hnext⟩ := hoff _ (.head _)
    have hnext : next = s.next := hnext
    have hn : n < C.n := by
      by_contra hn
      rw [show C.n - n = 0 by omega] at hss
      cases hss
    rw [show C.n - n = C.n - (n + 1) + 1 by omega, List.range'_succ, List.map_cons] at hss
    obtain ⟨hhid, htail⟩ := List.cons.inj hss
    have hhid : p.hid = n := hhid
    rw [Seq.writeAll, dif_pos (by omega : p.hid < C.n)] at hw
    obtain ⟨u, hwrite, hw⟩ := Option.bind_eq_some_iff.mp hw
    have hpoff : p.off = off := hpoff
    rw [hpoff] at hwrite
    have hu := (ms _).write_bytes _ _ _ _ _ hv hwrite
    rw [hs, if_neg (by dsimp only; omega)] at hu
    subst hnext
    refine @ih ⟨Function.update s.mirrors _ u, s.next, s.sent⟩ (n + 1) htail
      (fun y hy => hoff y (.tail _ hy)) (fun h => ?_) hw
    dsimp only
    by_cases he : h = ⟨p.hid, by omega⟩
    · subst he
      rw [if_pos (by dsimp only; omega), Function.update_self]
      exact hu
    · have hne : h.val ≠ n := fun hv => he (Fin.ext (hv.trans hhid.symm))
      have hiff : h.val < n + 1 ↔ h.val < n := by omega
      rw [Function.update_of_ne he, hs h]
      simp only [hiff]

theorem process_holds {r : Transfer} {out : List (List Byte)} (hf : fits r) (hs : Holds s a)
    (hl : Level s) (hp : Seq.process ms s r = some (out, t)) :
    Level t ∧ out = (flat a [r]).1 ∧ Holds t (flat a [r]).2 := by
  cases r with
  | read off v =>
    have hf : Fits off v := hf
    obtain ⟨ss, hss, hc, hturns, hall⟩ := @chunks_parts C off (v.len + 1) 0 v s.next hf.len
      (Nat.zero_le _) (by omega)
    simp only [Seq.process, route, Bool.false_eq_true, if_false, hss, Option.bind_some] at hp
    obtain ⟨⟨got, u⟩, hread, he⟩ := Option.map_eq_some_iff.mp hp
    cases he
    obtain ⟨hh, hl', hgot⟩ := readAll_holds hf.len hall hc hturns hs hl hread
    refine ⟨hl', ?_, hh⟩
    simp only [flat, offsets, List.map_map]
    congr 1
    apply List.map_congr_left
    intro i hi
    exact (hgot i (List.mem_range.mp hi)).trans (if_neg (Nat.not_lt_zero i))
  | write off v src =>
    simp only [Seq.process, route, if_true, Option.bind_some] at hp
    obtain ⟨u, hwrite, he⟩ := Option.map_eq_some_iff.mp hp
    obtain ⟨rfl, rfl⟩ := Prod.mk.inj he
    obtain ⟨hh, hnext, hsent⟩ := @writeAll_holds C ms s _ off v (copies C off v s.next) a src hf 0
      (by simp [copies, List.range_eq_range', Function.comp_def]) (by simp [copies])
      (fun h => by simp [hs h]) hwrite
    refine ⟨?_, rfl, hh⟩
    obtain ⟨q, hq⟩ := hl
    exact ⟨q, fun h => by rw [hsent, hnext, hq]⟩

theorem serve_holds (hf : ∀ r ∈ reqs, fits r) (hs : Holds s a) (hl : Level s)
    (hserve : Seq.serve ms s reqs = some (outs, t)) :
    Level t ∧ outs = (flat a reqs).1 ∧ Holds t (flat a reqs).2 := by
  induction reqs generalizing s a outs with
  | nil =>
    cases hserve
    exact ⟨hl, rfl, hs⟩
  | cons r reqs ih =>
    obtain ⟨⟨out, u⟩, hp, hserve⟩ := Option.bind_eq_some_iff.mp hserve
    obtain ⟨⟨rest, u'⟩, hrest, he⟩ := Option.map_eq_some_iff.mp hserve
    cases he
    obtain ⟨hlu, hout, hu⟩ := process_holds (hf r (.head _)) hs hl hp
    obtain ⟨hlt, houts, ht⟩ := ih (fun r hr => hf r (.tail _ hr)) hu hlu hrest
    refine ⟨hlt, ?_, ?_⟩
    · rw [hout, houts]
      cases r <;> rfl
    · cases r <;> exact ht

theorem balanced_of_level (h : Level s) (i j : Fin C.n) : s.sent i ≤ s.sent j + 1 := by
  obtain ⟨q, hq⟩ := h
  rw [hq i, hq j]
  split <;> split <;> omega

/-- A new target over mirrors. -/
def Seq.initial (ms : Mirrors C) (mirrors : ∀ h, (ms h).State) : Seq C ms :=
  ⟨mirrors, ⟨0, C.n_pos⟩, fun _ => 0⟩

/-- Mirrors that hold the same bytes at first hold the same after any requests that succeed, the
bytes of one array; reads return its bytes, in parts that follow each other in the buffer and are
shared out evenly. -/
theorem mirrors_flat (C : Config) (ms : Mirrors C) (mirrors : ∀ h, (ms h).State) (a : Nat → Byte)
    (heq : ∀ h, (ms h).bytes (mirrors h) = a) :
    (∀ hid off v, Fits off v → ∃ ss, route C hid false off v = some ss ∧
      Consecutive 0 (ss.map Prod.fst) v.len ∧ ∀ s ∈ ss, Part C off s.1) ∧
    ∀ reqs outs t, (∀ r ∈ reqs, fits r) →
      Seq.serve ms (.initial ms mirrors) reqs = some (outs, t) →
      outs = (flat a reqs).1 ∧ (∀ h, (ms h).bytes (t.mirrors h) = (flat a reqs).2) ∧
        ∀ i j, t.sent i ≤ t.sent j + 1 := by
  constructor
  · intro hid off v hf
    obtain ⟨ss, hss, hc, -, hall⟩ := @chunks_parts C off (v.len + 1) 0 v hid hf.len (Nat.zero_le _)
      (by omega)
    exact ⟨ss, hss, hc, hall⟩
  · intro reqs outs t hf hserve
    have hlevel : Level (Seq.initial ms mirrors) := by
      refine ⟨0, fun h => ?_⟩
      rw [if_neg (show ¬ h < (Seq.initial ms mirrors).next from Nat.not_lt_zero h.val)]
      rfl
    have hholds : Holds (Seq.initial ms mirrors) a := heq
    obtain ⟨hl, houts, ht⟩ := serve_holds hf hholds hlevel hserve
    exact ⟨houts, ht, balanced_of_level hl⟩

/-- Memory, at all offsets of 64 bits. -/
def Mirror.memory : Mirror where
  State := Nat → Byte
  bytes s := s
  read s off _ := some (fun i => s (wrap (off + i)), s)
  write s off v src := some (store s off v.len src)
  read_bytes _ _ _ _ _ _ h := by cases h; exact ⟨fun _ _ => rfl, rfl⟩
  write_bytes _ _ _ _ _ _ h := by cases h; rfl

theorem sector_sectors : 512 ∣ 512 := by decide

theorem sector_pos : 0 < 512 := by decide

theorem sector_word : 512 < 2 ^ 64 := by decide

theorem three_two : 2 ≤ 3 := by decide

def threeMirrors : Config := ⟨512, 3, sector_sectors, sector_pos, sector_word, three_two⟩

/-- A write, and a read of four parts, the last of them beyond the last offset. -/
def writeAndRead : List Transfer :=
  [.write 0 ⟨0, 2⟩ fun i => ⟨BitVec.ofNat 8 (i + 1)⟩, .read (2 ^ 64 - 1536) ⟨0, 2048⟩]

theorem mirrors_flat_writeAndRead : ∃ outs t,
    Seq.serve (fun _ => .memory) (@Seq.initial threeMirrors _ fun _ _ => 0) writeAndRead =
      some (outs, t) ∧
    outs = (flat (fun _ => 0) writeAndRead).1 ∧ ∀ i j, t.sent i ≤ t.sent j + 1 := by
  refine ⟨_, _, rfl, ?_⟩
  have h := (mirrors_flat threeMirrors (fun _ => .memory) (fun _ _ => 0) (fun _ => 0)
    fun _ => rfl).2 writeAndRead _ _ (fun r hr => ?_) rfl
  · exact ⟨h.1, h.2.2⟩
  · rcases List.mem_cons.mp hr with rfl | hr
    · exact ⟨by decide, by decide, by decide⟩
    · obtain rfl := List.mem_singleton.mp hr
      exact ⟨by decide, by decide, by decide⟩

end Ublk.Raid1
