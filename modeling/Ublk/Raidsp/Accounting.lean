import Ublk.Lib.SerialTrace
import Ublk.Raidsp.Frame

/-! Requests of an acceptor: who holds them, and what becomes of their parts. -/
namespace Ublk.Raidsp

open Shared Serial Acceptor

variable {G : Geometry} {E : Env} {w w' : SubWrite} {x x' : Inner} {c : Nat} {t t' : Requests}
  {b : Beside} {rd : ClientRead} {q : Query} {base : Nat → Nat}

theorem reads_set {i : Nat} (h : x.reads[i]? = some rd) :
    readsOf c { x with reads := x.reads.set i { rd with query := q } } = readsOf c x := by
  obtain ⟨hlt, rfl⟩ := List.getElem?_eq_some_iff.mp h
  have h₁ := (List.getElem_cons_eraseIdx_perm hlt).countP_eq fun rd => c == rd.cid
  have h₂ := (List.getElem_cons_eraseIdx_perm
    (l := x.reads.set i { x.reads[i] with query := q }) (by simpa using hlt)).countP_eq
      fun rd => c == rd.cid
  simp only [List.getElem_set_self, List.eraseIdx_set_eq, List.countP_cons] at h₁ h₂
  rw [readsOf, readsOf, ← h₁, ← h₂]

theorem reads_eraseIdx {i : Nat} (h : x.reads[i]? = some rd) :
    readsOf c x =
      readsOf c { x with reads := x.reads.eraseIdx i } + if c = rd.cid then 1 else 0 := by
  obtain ⟨hlt, rfl⟩ := List.getElem?_eq_some_iff.mp h
  rw [readsOf, readsOf, ← (List.getElem_cons_eraseIdx_perm hlt).countP_eq, List.countP_cons]
  simp

theorem beside_balanced (h : beside G E b x t = some (x', t'))
    (hb : t.Balanced (fun c => base c + readsOf c x) none) :
    t'.Balanced (fun c => base c + readsOf c x') none := by
  cases b with
  | read off size hpos =>
    simp only [beside, Option.some.injEq, Prod.mk.injEq] at h
    obtain ⟨rfl, rfl⟩ := h
    have hc := Requests.balanced_create hb (g := fun d => base d + readsOf d x +
      if d = t.count then 1 else 0) fun _ => rfl
    have hs := Requests.balanced_share hc (g := fun d => base d + readsOf d x +
      (if d = t.count then 1 else 0) + if d = t.count then 1 else 0) (by simp) fun _ => rfl
    split
    · refine Requests.balanced_returned (Requests.balanced_drop (Requests.balanced_setErr hs)
        fun _ => rfl) fun _ => rfl
    · refine Requests.balanced_returned hs fun d => ?_
      simp only [readsOf, List.countP_append, List.countP_cons, List.countP_nil, beq_iff_eq]
      omega
  | effect i n hit =>
    obtain ⟨rd, hrd, h⟩ := Option.bind_eq_some_iff.mp h
    obtain ⟨q, -, h⟩ := Option.map_eq_some_iff.mp h
    cases h
    simpa only [reads_set hrd] using hb
  | settle i n e =>
    obtain ⟨rd, hrd, h⟩ := Option.bind_eq_some_iff.mp h
    obtain ⟨q, -, h⟩ := Option.map_eq_some_iff.mp h
    split at h
    · cases h
      refine Requests.balanced_drop (Requests.balanced_setErr hb) fun d => ?_
      rw [reads_eraseIdx hrd, ← Nat.add_assoc]
      rfl
    · cases h
      simpa only [reads_set hrd] using hb

theorem cid_of_request (h : w'.request = w.request) : w'.cid = w.cid :=
  congrArg Slice.cid (slice_of_request h)

theorem acceptor_sharing : Sharing (acceptor G E) readsOf where
  start _ _ := cid_of_request stays_process.request
  react _ _ _ _ _ h := cid_of_request (react_keeps h).1
  park _ := rfl
  split _ _ _ _ h := by
    obtain ⟨_, -, hslice, -⟩ := mem_split h
    exact congrArg Slice.cid hslice
  split_outside _ _ _ _ := rfl
  start_outside w x c := by
    rw [show ((acceptor G E).start w x).2.2 = _ from stays_process.rest]
    rfl
  react_outside _ _ _ _ _ _ h := by rw [(react_keeps h).2]; rfl
  enter_outside _ _ _ := rfl
  leave_outside _ _ _ := rfl
  aside _ _ _ _ _ _ h := beside_balanced h

/-- The parts of a request to write. -/
def slices (G : Geometry) (c : Nat) (r : WriteReq) : List Slice :=
  (Blocks.cut G.stripeDataSz r.off r.size).map (r.slice c)

/-- The parts of all writes that came. -/
def Inner.made (G : Geometry) (x : Inner) : List Slice :=
  x.writes.flatMap fun p => slices G p.1 p.2

theorem acceptor_tracing :
    Tracing (acceptor G E) SubWrite.toSlice (Inner.made G) fun x => x.done where
  start w x := by
    have h : ((acceptor G E).start w x).2.2 = _ := (stays_process (G := G) (E := E)).rest
    exact ⟨slice_of_request stays_process.request, by rw [h]; rfl, by rw [h]⟩
  react _ _ _ _ _ h := by
    obtain ⟨hr, hx⟩ := react_keeps h
    exact ⟨slice_of_request hr, by rw [hx]; rfl, by rw [hx]⟩
  park _ := rfl
  split r c x := by
    refine ⟨?_, rfl⟩
    change Inner.made G (split G r c x).2 = Inner.made G x ++ (split G r c x).1.map SubWrite.toSlice
    simp only [split, Inner.made, List.flatMap_append, List.flatMap_cons, List.flatMap_nil,
      List.append_nil]
    congr 1
    refine List.ext_getElem (by simp [slices]) fun i h₁ h₂ => ?_
    simp [slices]
  enter _ _ := ⟨rfl, rfl⟩
  leave _ _ := ⟨rfl, rfl⟩
  aside _ _ _ _ _ h := by
    obtain ⟨hx, -⟩ := beside_keeps h
    exact ⟨by rw [hx]; rfl, by rw [hx]⟩

end Ublk.Raidsp
