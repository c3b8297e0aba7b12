import Ublk.Lib.OrderedTable
import Ublk.Lib.Runs
import Ublk.Lib.Words

/-!
The caching allocator. Blocks are generated for classes, an alignment and a size each, and a block
that is freed waits in the list of its class.
-/
namespace Ublk.CachedAllocator

open OrderedTable Words

/-- `sys::page_size()` -/
structure Page where
  size : Nat
  pow : size.isPowerOfTwo
  large : 16 ≤ size

structure Class where
  alignment : Nat
  sz : Nat
  deriving DecidableEq

/-- History: a block that was generated. -/
structure Block where
  addr : Nat
  cls : Class

/-- `busy_desc` -/
structure Busy where
  chunk : Nat
  cls : Class

/-- The free chunks by alignment and by size, those freed last first. -/
abbrev FreeTable := List (Nat × List (Nat × List Nat))

/-- What memory is asked for with. -/
inductive Call
  | new (alignment sz : Nat)
  | mmap (sz : Nat) (huge : Bool)

def Call.sz : Call → Nat
  | .new _ sz => sz
  | .mmap sz _ => sz

/-- `alignof(std::max_align_t)` -/
def maxAlign : Nat := 16

/-- What `get_unique_bytes_generator` makes, called. A mapping that fails is null. -/
def generate (page : Page) (c : Class) (os : Call → Option Nat) : Option Nat :=
  if c.sz < page.size then do
    expects (max c.alignment maxAlign).isPowerOfTwo
    os (.new (max c.alignment maxAlign) c.sz)
  else
    let generic := (os (.mmap c.sz false)).getD 0
    if c.sz < 2 * 2 ^ 20 then some generic else some ((os (.mmap c.sz true)).getD generic)

namespace FreeTable

/-- The class for a request: the first alignment and then the first size that are large enough. -/
def choose (ftbl : FreeTable) (alignment sz : Nat) : Class × FreeTable :=
  let r := atLeast ftbl (max alignment maxAlign) []
  let d := atLeast r.1.2 (max sz r.1.1) []
  (⟨r.1.1, d.1.1⟩, put r.2 r.1.1 d.2)

def chunks (ftbl : FreeTable) (c : Class) : Option (List Nat) :=
  (ftbl.lookup c.alignment).bind fun d => d.lookup c.sz

def setChunks (ftbl : FreeTable) (c : Class) (st : List Nat) : FreeTable :=
  match ftbl.lookup c.alignment with
  | some d => put ftbl c.alignment (put d c.sz st)
  | none => ftbl

/-- The free blocks. -/
def blocks (ftbl : FreeTable) : List Block :=
  ftbl.flatMap fun e => e.2.flatMap fun f => f.2.map fun p => ⟨p, e.1, f.1⟩

end FreeTable

structure State where
  ftbl : FreeTable
  btbl : List (Nat × Busy)
  /-- History: the pointers that are handed out, and all the blocks. -/
  held : List Nat
  generated : List Block

def initial : State := ⟨[], [], [], []⟩

/-- `allocate_aligned` -/
def allocate (page : Page) (s : State) (alignment sz : Nat) (os : Call → Option Nat) :
    Option (Nat × State) := do
  expects alignment.isPowerOfTwo
  expects (sz ≠ 0)
  let r := s.ftbl.choose alignment sz
  let st ← r.2.chunks r.1
  match st with
  | p :: rest =>
    expects (s.btbl.lookup p = none)
    return (p, ⟨r.2.setChunks r.1 rest, (p, ⟨p, r.1⟩) :: s.btbl, p :: s.held, s.generated⟩)
  | [] =>
    let p ← generate page r.1 os
    expects (s.btbl.lookup p = none)
    return (p, ⟨r.2.setChunks r.1 [], (p, ⟨p, r.1⟩) :: s.btbl, p :: s.held,
      s.generated ++ [⟨p, r.1⟩]⟩)

/-- `free` -/
def free (s : State) (p : Nat) : Option State := do
  let b ← s.btbl.lookup p
  let st ← s.ftbl.chunks b.cls
  return { s with
    ftbl := s.ftbl.setChunks b.cls (b.chunk :: st)
    btbl := s.btbl.eraseP fun e => e.1 == p
    held := s.held.erase p }

inductive Action
  /-- `os` answers the calls that this allocation makes. -/
  | allocate (alignment sz : Nat) (os : Call → Option Nat)
  | free (p : Nat)

def step (page : Page) (s : State) : Action → Option State
  | .allocate alignment sz os => (allocate page s alignment sz os).map Prod.snd
  | .free p => free s p

/-- The blocks that are handed out. -/
def State.live (s : State) : List Block := s.btbl.map fun e => ⟨e.2.chunk, e.2.cls⟩

/-- The blocks share no byte. -/
def Block.Apart (b c : Block) : Prop :=
  b.addr + b.cls.sz ≤ c.addr ∨ c.addr + c.cls.sz ≤ b.addr

/-- What a call's answer is aligned to. -/
def Call.alignment (page : Page) : Call → Nat
  | .new alignment _ => alignment
  | .mmap _ _ => page.size

/-- Memory that is given is new: not null, aligned as asked for, and apart from what was given. -/
def Serves (page : Page) (s : State) (os : Call → Option Nat) : Prop :=
  ∀ call p, os call = some p → p ≠ 0 ∧ call.alignment page ∣ p ∧
    ∀ b ∈ s.generated, p + call.sz ≤ b.addr ∨ b.addr + b.cls.sz ≤ p

/-- The call that is made last. -/
def resort (page : Page) (c : Class) : Call :=
  if c.sz < page.size then .new (max c.alignment maxAlign) c.sz else .mmap c.sz false

/-- What callers keep to, and memory that does not run out where it is needed. -/
def Allowed (page : Page) (s : State) : Action → Prop
  | .allocate alignment sz os =>
    (alignment.isPowerOfTwo ∧ alignment ≤ page.size ∧ 0 < sz) ∧ Serves page s os ∧
      ((s.ftbl.choose alignment sz).2.chunks (s.ftbl.choose alignment sz).1 = some [] →
        os (resort page (s.ftbl.choose alignment sz).1) ≠ none)
  | .free p => p ∈ s.held

variable {page : Page} {s t : State} {a : Action} {ftbl : FreeTable} {c c' : Class}
  {st st' : List Nat} {alignment sz p : Nat} {os : Call → Option Nat} {xs ys : List Block}

theorem dvd_of_le {x y : Nat} (hx : x.isPowerOfTwo) (hy : y.isPowerOfTwo) (h : x ≤ y) : x ∣ y := by
  obtain ⟨m, rfl⟩ := hx
  obtain ⟨n, rfl⟩ := hy
  exact Nat.pow_dvd_pow 2 ((Nat.pow_le_pow_iff_right (by decide)).mp h)

theorem isPowerOfTwo_max {x y : Nat} (hx : x.isPowerOfTwo) (hy : y.isPowerOfTwo) :
    (max x y).isPowerOfTwo := by
  rcases Nat.le_total x y with h | h
  · rwa [Nat.max_eq_right h]
  · rwa [Nat.max_eq_left h]

theorem isPowerOfTwo_maxAlign : maxAlign.isPowerOfTwo := ⟨4, rfl⟩

/-- A generated block is what its class says, and new. -/
theorem generate_new (hc : c.alignment.isPowerOfTwo) (hle : c.alignment ≤ page.size)
    (hos : Serves page s os) (hlast : os (resort page c) ≠ none) :
    ∃ p, generate page c os = some p ∧ p ≠ 0 ∧ c.alignment ∣ p ∧
      ∀ b ∈ s.generated, Block.Apart ⟨p, c⟩ b := by
  obtain ⟨q, hq⟩ := Option.ne_none_iff_exists'.mp hlast
  obtain ⟨hq0, hqa, hqb⟩ := hos _ _ hq
  rw [resort] at hq hqa hqb
  rw [generate]
  by_cases hsz : c.sz < page.size
  · rw [if_pos hsz] at hq hqa hqb
    have hpow := isPowerOfTwo_max hc isPowerOfTwo_maxAlign
    rw [if_pos hsz, expects_bind hpow]
    exact ⟨q, hq, hq0, Nat.dvd_trans (dvd_of_le hc hpow (Nat.le_max_left ..)) hqa, hqb⟩
  · rw [if_neg hsz] at hq hqa hqb
    have hdvd := dvd_of_le hc page.pow hle
    rw [if_neg hsz, hq]
    dsimp only
    by_cases hhuge : c.sz < 2 * 2 ^ 20
    · rw [if_pos hhuge]
      exact ⟨q, rfl, hq0, Nat.dvd_trans hdvd hqa, hqb⟩
    · rw [if_neg hhuge]
      cases hh : os (.mmap c.sz true) with
      | none => exact ⟨q, rfl, hq0, Nat.dvd_trans hdvd hqa, hqb⟩
      | some p =>
        obtain ⟨hp0, hpa, hpb⟩ := hos _ _ hh
        exact ⟨p, rfl, hp0, Nat.dvd_trans hdvd hpa, hpb⟩

namespace FreeTable

structure Valid (page : Page) (ftbl : FreeTable) : Prop where
  sorted : Sorted ftbl
  pow : ∀ e ∈ ftbl, e.1.isPowerOfTwo
  le : ∀ e ∈ ftbl, e.1 ≤ page.size
  sizes : ∀ e ∈ ftbl, Sorted e.2

theorem chunks_eq_some (h : chunks ftbl c = some st) :
    ∃ d, ftbl.lookup c.alignment = some d ∧ d.lookup c.sz = some st :=
  Option.bind_eq_some_iff.mp h

theorem chunks_setChunks_self (h : chunks ftbl c = some st) :
    chunks (setChunks ftbl c st') c = some st' := by
  obtain ⟨d, hd, hst⟩ := chunks_eq_some h
  rw [setChunks, hd, chunks, lookup_put_self hd]
  exact lookup_put_self hst

theorem chunks_setChunks_of_ne (h : c' ≠ c) : chunks (setChunks ftbl c st) c' = chunks ftbl c' := by
  rw [setChunks]
  cases hd : ftbl.lookup c.alignment with
  | none => rfl
  | some d =>
    dsimp only
    rw [chunks, chunks]
    by_cases ha : c'.alignment = c.alignment
    · have hsz : c'.sz ≠ c.sz := by
        intro hsz
        obtain ⟨a, z⟩ := c'
        obtain ⟨a', z'⟩ := c
        simp_all
      rw [ha, lookup_put_self hd, hd]
      exact lookup_put_of_ne hsz
    · rw [lookup_put_of_ne ha]

theorem chunks_setChunks (h : ∃ st, chunks ftbl c' = some st) :
    ∃ st', chunks (setChunks ftbl c st) c' = some st' := by
  by_cases he : c' = c
  · subst he
    obtain ⟨st', h⟩ := h
    exact ⟨st, chunks_setChunks_self h⟩
  · rwa [chunks_setChunks_of_ne he]

theorem valid_put {d : List (Nat × List Nat)} (h : Valid page ftbl) (hpow : alignment.isPowerOfTwo)
    (hle : alignment ≤ page.size) (hd : Sorted d) : Valid page (put ftbl alignment d) := by
  refine ⟨sorted_put h.sorted, fun e he => ?_, fun e he => ?_, fun e he => ?_⟩
  · rcases mem_put he with rfl | he
    · exact hpow
    · exact h.pow e he
  · rcases mem_put he with rfl | he
    · exact hle
    · exact h.le e he
  · rcases mem_put he with rfl | he
    · exact hd
    · exact h.sizes e he

theorem valid_setChunks (h : Valid page ftbl) : Valid page (setChunks ftbl c st) := by
  rw [setChunks]
  cases hd : ftbl.lookup c.alignment with
  | none => exact h
  | some d =>
    have hm := mem_of_lookup hd
    exact valid_put h (h.pow _ hm) (h.le _ hm) (sorted_put (h.sizes _ hm))

/-- The free blocks change as those of the class do. -/
theorem blocks_setChunks (h : chunks ftbl c = some st)
    (hp : (st.map (Block.mk · c) ++ xs).Perm (st'.map (Block.mk · c) ++ ys)) :
    (blocks ftbl ++ xs).Perm (blocks (setChunks ftbl c st') ++ ys) := by
  obtain ⟨d, hd, hst⟩ := chunks_eq_some h
  rw [setChunks, hd]
  exact flatMap_put hd (flatMap_put hst hp)

/-- The class chosen has room for the request. -/
theorem choose_spec (h : Valid page ftbl) (hpow : alignment.isPowerOfTwo)
    (hle : alignment ≤ page.size) :
    alignment ≤ (choose ftbl alignment sz).1.alignment ∧
      (choose ftbl alignment sz).1.alignment.isPowerOfTwo ∧
      (choose ftbl alignment sz).1.alignment ≤ page.size ∧
      sz ≤ (choose ftbl alignment sz).1.sz ∧ Valid page (choose ftbl alignment sz).2 ∧
      ∃ st, chunks (choose ftbl alignment sz).2 (choose ftbl alignment sz).1 = some st := by
  obtain ⟨hk, hs, hl⟩ := @atLeast_spec _ _ _ ftbl (max alignment maxAlign) [] h.sorted
  have hr : Valid page (atLeast ftbl (max alignment maxAlign) []).2 := by
    refine ⟨hs, fun e he => ?_, fun e he => ?_, fun e he => ?_⟩
    · rcases mem_atLeast he with rfl | he
      · exact isPowerOfTwo_max hpow isPowerOfTwo_maxAlign
      · exact h.pow e he
    · rcases mem_atLeast he with rfl | he
      · exact Nat.max_le.mpr ⟨hle, page.large⟩
      · exact h.le e he
    · rcases mem_atLeast he with rfl | he
      · exact List.Pairwise.nil
      · exact h.sizes e he
  rw [choose]
  generalize atLeast ftbl (max alignment maxAlign) [] = r at hk hl hr ⊢
  have hm := mem_of_lookup hl
  obtain ⟨hk', hs', hl'⟩ := @atLeast_spec _ _ _ r.1.2 (max sz r.1.1) [] (hr.sizes _ hm)
  dsimp only
  refine ⟨Nat.le_trans (Nat.le_max_left ..) hk, hr.pow _ hm, hr.le _ hm,
    Nat.le_trans (Nat.le_max_left ..) hk', valid_put hr (hr.pow _ hm) (hr.le _ hm) hs', ?_⟩
  exact ⟨_, by rw [chunks, lookup_put_self hl]; exact hl'⟩

/-- The classes there were keep their chunks. -/
theorem chunks_choose (h : Valid page ftbl) (hc : chunks ftbl c = some st) :
    chunks (choose ftbl alignment sz).2 c = some st := by
  obtain ⟨-, -, hl⟩ := @atLeast_spec _ _ _ ftbl (max alignment maxAlign) [] h.sorted
  obtain ⟨d, hd, hst⟩ := chunks_eq_some hc
  have hd' := @lookup_atLeast _ _ _ ftbl (max alignment maxAlign) _ [] _ hd
  rw [choose]
  generalize atLeast ftbl (max alignment maxAlign) [] = r at hl hd' ⊢
  dsimp only
  rw [chunks]
  by_cases he : c.alignment = r.1.1
  · rw [he] at hd' ⊢
    obtain rfl := Option.some.inj (hl.symm.trans hd')
    rw [lookup_put_self hl]
    exact lookup_atLeast hst
  · rw [lookup_put_of_ne he, hd']
    exact hst

theorem blocks_choose (h : Valid page ftbl) :
    (blocks ftbl).Perm (blocks (choose ftbl alignment sz).2) := by
  obtain ⟨-, -, hl⟩ := @atLeast_spec _ _ _ ftbl (max alignment maxAlign) [] h.sorted
  have hb : blocks (atLeast ftbl (max alignment maxAlign) []).2 = blocks ftbl := flatMap_atLeast rfl
  rw [choose, ← hb]
  generalize atLeast ftbl (max alignment maxAlign) [] = r at hl ⊢
  have := @flatMap_put _ _ _ _ r.2 r.1.1 (atLeast r.1.2 (max sz r.1.1) []).2 r.1.2
    (fun e => e.2.flatMap fun f => f.2.map fun p => Block.mk p ⟨e.1, f.1⟩) [] [] hl (by
      simp only [List.append_nil]
      rw [flatMap_atLeast (by rfl)])
  simpa only [List.append_nil, blocks] using this

end FreeTable

structure Inv (page : Page) (s : State) : Prop where
  valid : s.ftbl.Valid page
  busy : ∀ e ∈ s.btbl, e.2.chunk = e.1 ∧ ∃ st, s.ftbl.chunks e.2.cls = some st
  held : s.btbl.map Prod.fst = s.held
  /-- Every block is handed out or in the list of its class, and nowhere else. -/
  kept : (s.live ++ s.ftbl.blocks).Perm s.generated
  good : ∀ b ∈ s.generated, b.addr ≠ 0 ∧ b.cls.alignment ∣ b.addr ∧ 0 < b.cls.sz
  apart : s.generated.Pairwise Block.Apart

/-- What an allocation returns. -/
structure Served (s t : State) (alignment sz p : Nat) : Prop where
  large : ∃ c, ⟨p, c⟩ ∈ t.generated ∧ sz ≤ c.sz ∧ ∀ b ∈ s.live, Block.Apart ⟨p, c⟩ b
  aligned : alignment ∣ p
  nonnull : p ≠ 0
  new : p ∉ s.held

/-- A block goes back to the list of the class it was generated for. -/
def Returned (s t : State) (p : Nat) : Prop :=
  ∃ c st, ⟨p, c⟩ ∈ s.generated ∧ s.ftbl.chunks c = some st ∧ t.ftbl.chunks c = some (p :: st) ∧
    ∀ c' ≠ c, t.ftbl.chunks c' = s.ftbl.chunks c'

theorem apart_symm {b b' : Block} (h : b.Apart b') : b'.Apart b := Or.symm h

theorem inv_initial : Inv page initial where
  valid := ⟨.nil, nofun, nofun, nofun⟩
  busy := nofun
  held := rfl
  kept := .nil
  good := nofun
  apart := .nil

theorem held_eq (hi : Inv page s) : s.live.map Block.addr = s.held := by
  rw [← hi.held, State.live, List.map_map]
  exact List.map_congr_left fun e he => (hi.busy e he).1

theorem addr_ne {b b' : Block} (hb : 0 < b.cls.sz) (hb' : 0 < b'.cls.sz) (h : b.Apart b') :
    b.addr ≠ b'.addr := by
  rcases h with h | h <;> omega

theorem nodup_addr (hi : Inv page s) : (s.generated.map Block.addr).Nodup := by
  rw [List.Nodup, List.pairwise_map]
  exact hi.apart.imp_of_mem fun ha hb h => addr_ne (hi.good _ ha).2.2 (hi.good _ hb).2.2 h

/-- The block `⟨p, c⟩` is handed out. -/
theorem take_spec {rest : List Nat} {generated : List Block} (hi : Inv page s)
    (hdvd : alignment ∣ c.alignment) (hsz : sz ≤ c.sz) (hv : ftbl.Valid page)
    (hchunks : ∀ e ∈ s.btbl, ∃ st, ftbl.chunks e.2.cls = some st)
    (hc : ∃ st, ftbl.chunks c = some st)
    (hkept : (⟨p, c⟩ :: s.live ++ (ftbl.setChunks c rest).blocks).Perm generated)
    (hgood : ∀ b ∈ generated, b.addr ≠ 0 ∧ b.cls.alignment ∣ b.addr ∧ 0 < b.cls.sz)
    (hapart : generated.Pairwise Block.Apart) :
    s.btbl.lookup p = none ∧
      Inv page ⟨ftbl.setChunks c rest, (p, ⟨p, c⟩) :: s.btbl, p :: s.held, generated⟩ ∧
      Served s ⟨ftbl.setChunks c rest, (p, ⟨p, c⟩) :: s.btbl, p :: s.held, generated⟩
        alignment sz p := by
  have hmem : ⟨p, c⟩ ∈ generated := hkept.subset (.head _)
  have hlive : ∀ b ∈ s.live, b ∈ generated := fun b hb =>
    hkept.subset (.tail _ (List.mem_append_left _ hb))
  obtain ⟨hfrom, -⟩ := List.pairwise_cons.mp
    ((hkept.pairwise_iff apart_symm).mpr hapart)
  have hout : ∀ b ∈ s.live, Block.Apart ⟨p, c⟩ b := fun b hb =>
    hfrom b (List.mem_append_left _ hb)
  have hnew : p ∉ s.held := by
    rw [← held_eq hi]
    intro hp
    obtain ⟨b, hb, he⟩ := List.mem_map.mp hp
    exact addr_ne (hgood _ hmem).2.2 (hgood _ (hlive b hb)).2.2 (hout b hb) he.symm
  refine ⟨?_, ⟨FreeTable.valid_setChunks hv, ?_, ?_, hkept, hgood, hapart⟩,
    ⟨⟨c, hmem, hsz, hout⟩, Nat.dvd_trans hdvd (hgood _ hmem).2.1, (hgood _ hmem).1, hnew⟩⟩
  · refine List.lookup_eq_none_iff.mpr fun e he => ?_
    have hne : p ≠ e.1 := by
      rintro rfl
      exact hnew (hi.held ▸ List.mem_map_of_mem he)
    simpa using hne
  · intro e he
    rcases List.mem_cons.mp he with rfl | he
    · exact ⟨rfl, FreeTable.chunks_setChunks hc⟩
    · exact ⟨(hi.busy e he).1, FreeTable.chunks_setChunks (hchunks e he)⟩
  · exact congrArg (p :: ·) hi.held

theorem allocate_spec (hi : Inv page s) (ha : Allowed page s (.allocate alignment sz os)) :
    ∃ p t, allocate page s alignment sz os = some (p, t) ∧ Inv page t ∧
      Served s t alignment sz p := by
  obtain ⟨⟨hpow, hle, hpos⟩, hos, hlast⟩ := ha
  obtain ⟨hal, hcpow, hcle, hsz, hv, st, hst⟩ :=
    @FreeTable.choose_spec page s.ftbl alignment sz hi.valid hpow hle
  have hold : ∀ e ∈ s.btbl,
      ∃ st, (s.ftbl.choose alignment sz).2.chunks e.2.cls = some st := fun e he => by
    obtain ⟨st, h⟩ := (hi.busy e he).2
    exact ⟨st, FreeTable.chunks_choose hi.valid h⟩
  have hblocks := @FreeTable.blocks_choose page s.ftbl alignment sz hi.valid
  rw [allocate, expects_bind hpow, expects_bind (by omega : sz ≠ 0)]
  generalize s.ftbl.choose alignment sz = r at *
  have hdvd := dvd_of_le hpow hcpow hal
  cases st with
  | cons p rest =>
    have hkept : (⟨p, r.1⟩ :: s.live ++ (r.2.setChunks r.1 rest).blocks).Perm s.generated := by
      have hset := @FreeTable.blocks_setChunks r.2 r.1 (p :: rest) rest [] [⟨p, r.1⟩] hst (by
        simpa using (List.perm_append_singleton _ _).symm)
      rw [List.append_nil] at hset
      calc ⟨p, r.1⟩ :: s.live ++ (r.2.setChunks r.1 rest).blocks
        _ |>.Perm (s.live ++ ⟨p, r.1⟩ :: (r.2.setChunks r.1 rest).blocks) :=
          List.perm_middle.symm
        _ |>.Perm (s.live ++ ((r.2.setChunks r.1 rest).blocks ++ [⟨p, r.1⟩])) :=
          (List.perm_append_singleton _ _).symm.append_left _
        _ |>.Perm (s.live ++ r.2.blocks) := hset.symm.append_left _
        _ |>.Perm (s.live ++ s.ftbl.blocks) := hblocks.symm.append_left _
        _ |>.Perm s.generated := hi.kept
    obtain ⟨hnone, hinv, hserved⟩ := take_spec hi hdvd hsz hv hold ⟨_, hst⟩ hkept hi.good hi.apart
    refine ⟨p, _, ?_, hinv, hserved⟩
    simp only [hst, Option.bind_eq_bind, Option.bind_some, bind_expects hnone]
    rfl
  | nil =>
    obtain ⟨p, hgen, hp0, hpa, hpb⟩ := generate_new hcpow hcle hos (hlast hst)
    have hkept : (⟨p, r.1⟩ :: s.live ++ (r.2.setChunks r.1 []).blocks).Perm
        (s.generated ++ [⟨p, r.1⟩]) := by
      have hset := @FreeTable.blocks_setChunks r.2 r.1 [] [] [] [] hst .rfl
      rw [List.append_nil, List.append_nil] at hset
      calc ⟨p, r.1⟩ :: s.live ++ (r.2.setChunks r.1 []).blocks
        _ |>.Perm (⟨p, r.1⟩ :: (s.live ++ s.ftbl.blocks)) :=
          ((hblocks.trans hset).symm.append_left s.live).cons _
        _ |>.Perm (⟨p, r.1⟩ :: s.generated) := hi.kept.cons _
        _ |>.Perm (s.generated ++ [⟨p, r.1⟩]) := (List.perm_append_singleton _ _).symm
    have hgood : ∀ b ∈ s.generated ++ [⟨p, r.1⟩],
        b.addr ≠ 0 ∧ b.cls.alignment ∣ b.addr ∧ 0 < b.cls.sz := by
      intro b hb
      rcases List.mem_append.mp hb with hb | hb
      · exact hi.good b hb
      · obtain rfl := List.mem_singleton.mp hb
        exact ⟨hp0, hpa, Nat.lt_of_lt_of_le hpos hsz⟩
    have hapart : List.Pairwise Block.Apart (s.generated ++ [⟨p, r.1⟩]) := by
      have hone := List.pairwise_singleton Block.Apart ⟨p, r.1⟩
      refine List.pairwise_append.mpr ⟨hi.apart, hone, ?_⟩
      intro b hb b' hb'
      obtain rfl := List.mem_singleton.mp hb'
      exact apart_symm (hpb b hb)
    obtain ⟨hnone, hinv, hserved⟩ := take_spec hi hdvd hsz hv hold ⟨_, hst⟩ hkept hgood hapart
    refine ⟨p, _, ?_, hinv, hserved⟩
    simp only [hst, hgen, Option.bind_eq_bind, Option.bind_some, bind_expects hnone]
    rfl

theorem free_spec (hi : Inv page s) (hp : p ∈ s.held) :
    ∃ t, free s p = some t ∧ Inv page t ∧ Returned s t p := by
  obtain ⟨b, hb⟩ : ∃ b, s.btbl.lookup p = some b := by
    rw [← hi.held] at hp
    obtain ⟨e, he, rfl⟩ := List.mem_map.mp hp
    apply Option.ne_none_iff_exists'.mp
    intro hnone
    simpa using List.lookup_eq_none_iff.mp hnone e he
  obtain ⟨hchunk, st, hst⟩ := hi.busy _ (mem_of_lookup hb)
  obtain ⟨l, r, heq, herase, hheld⟩ := eraseP_of_lookup hb
  have hlive : s.live.Perm (⟨p, b.cls⟩ :: ((l ++ r).map fun e => ⟨e.2.chunk, e.2.cls⟩)) := by
    rw [State.live, heq, List.map_append, List.map_append, List.map_cons]
    obtain rfl : b.chunk = p := hchunk
    exact List.perm_middle
  have hset := @FreeTable.blocks_setChunks s.ftbl b.cls st (p :: st) [⟨p, b.cls⟩] [] hst (by
    simp)
  rw [List.append_nil] at hset
  have hstep : free s p = some ⟨s.ftbl.setChunks b.cls (p :: st), l ++ r, s.held.erase p,
      s.generated⟩ := by
    obtain rfl : b.chunk = p := hchunk
    simp only [free, hb, hst, herase, Option.bind_eq_bind, Option.bind_some]
    rfl
  refine ⟨_, hstep, ⟨FreeTable.valid_setChunks hi.valid, ?_, ?_, ?_, hi.good, hi.apart⟩, ?_⟩
  · intro e he
    have hmem : e ∈ s.btbl := by
      rw [heq]
      rcases List.mem_append.mp he with he | he
      · exact List.mem_append_left _ he
      · exact List.mem_append_right _ (.tail _ he)
    exact ⟨(hi.busy e hmem).1, FreeTable.chunks_setChunks (hi.busy e hmem).2⟩
  · exact (hheld.symm.trans (congrArg (·.erase p) hi.held))
  · let live' : List Block := (l ++ r).map fun e => ⟨e.2.chunk, e.2.cls⟩
    calc live' ++ (s.ftbl.setChunks b.cls (p :: st)).blocks
      _ |>.Perm (live' ++ (s.ftbl.blocks ++ [⟨p, b.cls⟩])) := hset.symm.append_left _
      _ |>.Perm (live' ++ ⟨p, b.cls⟩ :: s.ftbl.blocks) :=
        (List.perm_append_singleton _ _).append_left _
      _ |>.Perm (⟨p, b.cls⟩ :: live' ++ s.ftbl.blocks) := List.perm_middle
      _ |>.Perm (s.live ++ s.ftbl.blocks) := hlive.symm.append_right _
      _ |>.Perm s.generated := hi.kept
  · refine ⟨b.cls, st, ?_, hst, FreeTable.chunks_setChunks_self hst, fun c' hc =>
      FreeTable.chunks_setChunks_of_ne hc⟩
    exact hi.kept.subset (List.mem_append_left _ (hlive.symm.subset (.head _)))

theorem inv_step (hi : Inv page s) (ha : Allowed page s a) (h : step page s a = some t) :
    Inv page t := by
  cases a with
  | allocate alignment sz os =>
    obtain ⟨p, t', heq, hinv, -⟩ := allocate_spec hi ha
    rw [step, heq] at h
    cases h
    exact hinv
  | free p =>
    obtain ⟨t', heq, hinv, -⟩ := free_spec hi ha
    obtain rfl := Option.some.inj (heq.symm.trans h)
    exact hinv

theorem inv_of_run (h : Lts.Run (step page) (Allowed page) initial s) : Inv page s :=
  Lts.run_invariant h inv_initial fun _ _ _ hi ha hs => inv_step hi ha hs

/-- Wherever allocations and frees of pointers that are held lead: the blocks generated are those
handed out and those in the free lists, each once; an allocation returns a block that is large
enough, aligned and apart from those handed out; and a free puts its block back to its class. -/
theorem allocator_safe (page : Page) (s : State)
    (h : Lts.Run (step page) (Allowed page) initial s) :
    ((s.live ++ s.ftbl.blocks).Perm s.generated ∧ (s.generated.map Block.addr).Nodup ∧
      s.live.map Block.addr = s.held) ∧
    (∀ alignment sz os, Allowed page s (.allocate alignment sz os) →
      ∃ p t, allocate page s alignment sz os = some (p, t) ∧ Served s t alignment sz p) ∧
    ∀ p ∈ s.held, ∃ t, free s p = some t ∧ Returned s t p := by
  have hi := inv_of_run h
  refine ⟨⟨hi.kept, nodup_addr hi, held_eq hi⟩, ?_, ?_⟩
  · intro alignment sz os ha
    obtain ⟨p, t, heq, -, hserved⟩ := allocate_spec hi ha
    exact ⟨p, t, heq, hserved⟩
  · intro p hp
    obtain ⟨t, heq, -, hreturned⟩ := free_spec hi hp
    exact ⟨t, heq, hreturned⟩

/-- Pages of 4096 bytes. -/
def smallPage : Page := ⟨4096, ⟨12, rfl⟩, by decide⟩

/-- Each call is answered with the first address that is aligned for it. -/
def firstAddress (call : Call) : Option Nat :=
  if call.alignment smallPage = 0 then none else some (call.alignment smallPage)

theorem allocator_safe_hundred : ∃ p t,
    allocate smallPage initial 64 100 firstAddress = some (p, t) ∧ Served initial t 64 100 p := by
  refine (allocator_safe smallPage initial .refl).2.1 64 100 firstAddress
    ⟨⟨⟨6, rfl⟩, by decide, by decide⟩, ?_, by decide⟩
  intro call p h
  obtain ⟨hne, he⟩ := Option.ite_none_left_eq_some.mp h
  obtain rfl := Option.some.inj he
  exact ⟨hne, Nat.dvd_refl _, nofun⟩

end Ublk.CachedAllocator
