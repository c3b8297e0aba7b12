import Ublk.Cache.WriteThrough
import Ublk.Lib.SerialDrain
import Ublk.Progress

/-!
The write-through handler comes to rest. A part is over once its chunk has been read, if it must be,
and it has been written.
-/
namespace Ublk.Cache

open Shared Serial

variable {sz : Nat} {E : Env} {x y : Front} {f : Fill} {cov : Nat → Bool} {rd cid i : Nat}
  {p : Blocks.Piece} {t : Requests} {hit : Nat → Bool} {e : Int} {rg : Range} {b : Nat → Byte}

namespace Front

/-- What is left to read for the clients. -/
def left (x : Front) : Nat := (x.fills.map fun f => f.query.left).sum

/-- The chunks that are being read have something in flight. -/
def Filling (x : Front) : Prop := ∀ f ∈ x.fills, f.query.ops ≠ []

end Front

theorem filling_readChunk (h : x.Filling) : (x.readChunk sz E cov rd cid p t).2.1.Filling := by
  unfold Front.readChunk
  dsimp only
  split
  · unfold Front.Filling
    rw [fills_filled]
    exact h
  · rename_i hops
    intro f hf
    obtain hf | hf := List.mem_append.mp hf
    · exact h f hf
    · exact List.mem_singleton.mp hf ▸ hops

theorem filling_read (h : x.Filling) : (x.read sz E cov rg b t).1.Filling :=
  readLoop_both (P := fun y _ => y.Filling) (fun _ _ _ h => h) (fun _ _ _ h => filling_readChunk h)
    (fun _ _ _ _ h => h) h

theorem filling_sample (h : x.Filling) (hs : x.sample i hit = some y) : y.Filling := by
  obtain ⟨f, q, hf, hq, rfl⟩ := sample_cases hs
  intro g hg
  obtain hg | rfl := List.mem_or_eq_of_mem_set hg
  · exact h g hg
  · exact fun he => h f (List.mem_of_getElem? hf) ((Query.effect_keeps hq).2.2.2.2.1.mp he)

theorem filling_settle {z : Front × Requests} (h : x.Filling)
    (hs : x.settle sz cov i e t = some z) : z.1.Filling := by
  obtain ⟨f, q, hf, hq, rfl⟩ := settle_cases hs
  unfold Front.Filling
  rw [fills_filled]
  exact fun g hg => h g (List.mem_of_mem_eraseIdx hg)

theorem left_sample (hs : x.sample i hit = some y)
    (hg : ∃ f, x.fills[i]? = some f ∧ f.query.Gains 0 hit) : y.left < x.left := by
  obtain ⟨f, q, hf, hq, rfl⟩ := sample_cases hs
  obtain ⟨_, hf', hg⟩ := hg
  obtain rfl := Option.some.inj (hf.symm.trans hf')
  have hlt := Query.left_effect hg hq
  have hsum := sum_set (f := fun f => f.query.left) (b := { f with query := q.1 }) hf
  unfold Front.left
  dsimp only at hsum ⊢
  omega

theorem left_front_settle {z : Front × Requests} (hs : x.settle sz cov i e t = some z) :
    z.1.left < x.left := by
  obtain ⟨f, q, hf, hq, rfl⟩ := settle_cases hs
  have hlt := Query.left_settle hq
  have hsum := sum_eraseIdx (f := fun f : Fill => f.query.left) hf
  unfold Front.left
  rw [fills_filled]
  dsimp only at hsum ⊢
  omega

namespace Rwt

variable {w w' : ChunkWrite} {x x' : Inner} {a : Act} {r : ChunkWrite × Inner} {t' : Requests}

/-- What is left to do for a part: it is written after each read of its chunk at most. -/
def left (w : ChunkWrite) : Nat :=
  w.rmwq.left + w.rmwq.ops.length * (w.size + 1) + w.wq.left

theorem left_submitWrite : left (submitWrite sz E w x).2.1 ≤
    w.rmwq.left + w.rmwq.ops.length * (w.size + 1) + (w.size + 1) := by
  have := @Query.left_submit E (.writing w.src) (w.sub sz) x.front.disk
  rw [Query.left_eq_zero (q := .writing w.src) rfl, Nat.zero_add] at this
  exact Nat.add_le_add_left this _

theorem left_rmwDone : left (rmwDone sz E w x).1 ≤ left w + (w.size + 1) := by
  unfold rmwDone
  split
  · have := @left_submitWrite sz E w
      (x.put w.chunkId (overlay w.rmwq.buf w.chunkOffset w.size w.src))
    unfold left at this ⊢
    omega
  · exact Nat.le_add_right _ _

/-- An effect that changes something, or the end of a read or write. -/
def Act.Moves (w : ChunkWrite) : Act → Prop
  | .sample hit => w.rmwq.Gains 0 hit
  | .apply hit => w.wq.Gains 0 hit
  | _ => True

theorem left_react (ha : a.Moves w) (h : react sz E a w x = some (w', x')) : left w' < left w := by
  cases a with
  | sample hit =>
    obtain ⟨⟨q, dev⟩, hq, he⟩ := Option.map_eq_some_iff.mp h
    cases he
    have hlt := Query.left_effect ha hq
    have hlen := Query.length_effect hq
    unfold left
    dsimp only
    rw [hlen]
    omega
  | fill e =>
    obtain ⟨q, hq, he⟩ := Option.map_eq_some_iff.mp h
    obtain rfl : (rmwDone sz E { w with rmwq := q } x).1 = w' := congrArg Prod.fst he
    have hlt := Query.left_settle hq
    have hdone := @left_rmwDone sz E { w with rmwq := q } x
    unfold left at hdone ⊢
    dsimp only at hdone
    rw [← Query.length_settle hq, Nat.succ_mul]
    omega
  | apply hit =>
    obtain ⟨⟨q, dev⟩, hq, he⟩ := Option.map_eq_some_iff.mp h
    cases he
    have hlt := Query.left_effect ha hq
    unfold left
    dsimp only
    omega
  | complete e =>
    obtain ⟨q, hq, he⟩ := Option.map_eq_some_iff.mp h
    cases he
    have hlt := Query.left_settle hq
    unfold left
    dsimp only
    omega

/-- The queries of the reads under way. -/
def queries (x : Inner) : List Query := x.front.fills.map Fill.query

theorem queries_submitWrite : queries (submitWrite sz E w x).2.2 = queries x := List.map_map

theorem queries_rmwDone : queries (rmwDone sz E w x).2 = queries x := by
  unfold rmwDone
  split
  · exact queries_submitWrite
  · rfl

theorem queries_readFirst : queries (readFirst sz E w x).2.2 = queries x := by
  unfold readFirst
  dsimp only
  split
  · exact queries_rmwDone
  · rfl

theorem queries_process : queries (process sz E w x).2.2 = queries x := by
  unfold process
  split
  · exact queries_submitWrite
  · dsimp only
    split
    · exact queries_readFirst
    · exact queries_submitWrite

theorem queries_react (h : react sz E a w x = some (w', x')) : queries x' = queries x := by
  cases a with
  | sample hit =>
    obtain ⟨q, -, he⟩ := Option.map_eq_some_iff.mp h
    cases he
    rfl
  | fill e =>
    obtain ⟨q, -, he⟩ := Option.map_eq_some_iff.mp h
    obtain rfl : (rmwDone sz E { w with rmwq := q } x).2 = x' := congrArg Prod.snd he
    exact queries_rmwDone
  | apply hit =>
    obtain ⟨q, -, he⟩ := Option.map_eq_some_iff.mp h
    cases he
    exact List.map_map
  | complete e =>
    obtain ⟨q, -, he⟩ := Option.map_eq_some_iff.mp h
    cases he
    rfl

theorem filling_of_queries (hq : queries x' = queries x) (h : x.front.Filling) :
    x'.front.Filling := by
  have hall : ∀ q ∈ queries x, q.ops ≠ [] := fun q hq => by
    obtain ⟨f, hf, rfl⟩ := List.mem_map.mp hq
    exact h f hf
  exact fun f hf => hall _ (hq ▸ List.mem_map_of_mem hf)

theorem filling_rule : Kept (machine sz E) (fun _ _ => True) fun x => x.front.Filling where
  split _ _ _ h := h
  start _ _ h := filling_of_queries queries_process h
  react _ _ _ _ _ hr h := filling_of_queries (queries_react hr) h
  enter _ _ h := h
  leave w x h := by
    dsimp only [machine]
    split
    · exact h
    · exact h
  aside b x t x' t' _ hs h := by
    cases b with
    | read rg buf =>
      simp only [machine, aside, Option.some.injEq, Prod.mk.injEq] at hs
      obtain ⟨rfl, -⟩ := hs
      exact filling_read h
    | sample i hit =>
      obtain ⟨y, hy, he⟩ := Option.map_eq_some_iff.mp hs
      cases he
      exact filling_sample h hy
    | settle i e =>
      obtain ⟨y, hy, he⟩ := Option.map_eq_some_iff.mp hs
      cases he
      exact filling_settle h hy

def Beside.Moves (x : Inner) : Beside → Prop
  | .read _ _ => False
  | .sample i hit => ∃ f, x.front.fills[i]? = some f ∧ f.query.Gains 0 hit
  | .settle _ _ => True

theorem busy_iff : w.busy = true ↔ w.rmwq.ops ≠ [] ∨ w.wq.ops ≠ [] := by
  simp [ChunkWrite.busy, ← not_and_or]

theorem machine_draining : Draining (machine sz E) (fun c x => fillsOf c x.front)
    (fun x => x.front.Filling) left (fun x => x.front.left) (fun a w => a.Moves w)
    fun b x => b.Moves x where
  react _ _ _ _ _ ha h := left_react ha h
  busy w x hb := by
    rcases busy_iff.mp hb with h | h
    · exact ⟨.fill 5, trivial, fun hn =>
        Query.settle_ne_none h (Option.map_eq_none_iff.mp hn)⟩
    · exact ⟨.complete 5, trivial, fun hn =>
        Query.settle_ne_none h (Option.map_eq_none_iff.mp hn)⟩
  aside b x t x' t' hb hs := by
    cases b with
    | read rg buf => exact hb.elim
    | sample i hit =>
      obtain ⟨y, hy, he⟩ := Option.map_eq_some_iff.mp hs
      cases he
      exact left_sample hy hb
    | settle i e =>
      obtain ⟨y, hy, he⟩ := Option.map_eq_some_iff.mp hs
      cases he
      exact left_front_settle hy
  kept x t c hx hc := by
    obtain ⟨f, hf, -⟩ := List.mem_map.mp (List.count_pos_iff.mp (Nat.pos_of_ne_zero hc))
    obtain ⟨i, hlt, rfl⟩ := List.mem_iff_getElem.mp hf
    refine ⟨.settle i 5, trivial, fun h => Query.settle_ne_none (hx _ hf) ?_⟩
    simpa [machine, aside, Front.settle, List.getElem?_eq_getElem hlt] using h

end Rwt
end Ublk.Cache
