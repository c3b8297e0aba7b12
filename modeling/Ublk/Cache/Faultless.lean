import Ublk.Cache.Order

/-!
Runs of `RWTHandler` in which nothing fails that is handed on. No part fails, and no request.
-/
namespace Ublk.Cache.Rwt

open Shared Requests Serial

variable {sz : Nat} {E : Env} {w : ChunkWrite} {x x' : Inner} {a : Act} {b : Beside} {s t : State}
  {l : Label} {q q' : Requests} {r : ChunkWrite × Inner}

/-- Neither the read of a part nor its write has failed. -/
structure Flawless (w : ChunkWrite) : Prop where
  honest : ChunkWrite.Honest w
  read : w.rmwq.Clean
  write : w.wq.Clean

theorem err_of_flawless (h : Flawless w) : w.err = 0 := by
  have hr : w.rmwq.err = 0 := h.honest.1.mpr h.read.2
  rw [ChunkWrite.err, if_pos hr]
  exact h.honest.2.mpr h.write.2

section Flawless

variable (hE : ∀ c i, (E.beh c i).Succeeds)

include hE

theorem flawless_submitWrite (h : Flawless w) : Flawless (submitWrite sz E w x).2.1 :=
  ⟨honest_submitWrite h.honest.1, h.read, (Query.clean_submit (hE _ _) ⟨rfl, rfl⟩).2⟩

theorem flawless_rmwDone (h : Flawless w) : Flawless (rmwDone sz E w x).1 := by
  unfold rmwDone
  split
  · exact flawless_submitWrite hE h
  · exact h

theorem flawless_process (h : Flawless w) : Flawless (process sz E w x).2.1 := by
  unfold process
  split
  · exact flawless_submitWrite hE h
  · dsimp only
    split
    · have hread : ∀ d : Disk, Flawless { w with
          rmwq := ((Query.read (E.junk d.next)).submit E (chunkSub sz w.chunkId) d).2.1 } :=
        fun d => ⟨⟨Query.honest_submit (Query.honest_read _), h.honest.2⟩,
          (Query.clean_submit (hE _ _) ⟨rfl, rfl⟩).2, h.write⟩
      unfold readFirst
      dsimp only
      split
      · exact flawless_rmwDone hE (hread _)
      · exact hread _
    · exact flawless_submitWrite hE h

theorem flawless_react (ha : a.Succeeds) (hr : react sz E a w x = some r) (h : Flawless w) :
    Flawless r.1 := by
  have hhonest := honest_react hr h.honest
  cases a with
  | sample hit =>
    obtain ⟨q, hq, rfl⟩ := Option.map_eq_some_iff.mp hr
    obtain ⟨-, hrej, -, hbad, -⟩ := Query.effect_keeps hq
    exact ⟨hhonest, ⟨hrej.trans h.read.1, hbad.trans h.read.2⟩, h.write⟩
  | fill e =>
    obtain ⟨q, hq, rfl⟩ := Option.map_eq_some_iff.mp hr
    obtain ⟨-, -, hrej, -, hbad⟩ := Query.settle_keeps hq
    exact flawless_rmwDone hE ⟨⟨Query.honest_settle h.honest.1 hq, h.honest.2⟩,
      ⟨hrej.trans h.read.1, hbad.mpr ⟨ha, h.read.2⟩⟩, h.write⟩
  | apply hit =>
    obtain ⟨q, hq, rfl⟩ := Option.map_eq_some_iff.mp hr
    obtain ⟨-, hrej, -, hbad, -⟩ := Query.effect_keeps hq
    exact ⟨hhonest, h.read, ⟨hrej.trans h.write.1, hbad.trans h.write.2⟩⟩
  | complete e =>
    obtain ⟨q, hq, rfl⟩ := Option.map_eq_some_iff.mp hr
    obtain ⟨-, -, hrej, -, hbad⟩ := Query.settle_keeps hq
    exact ⟨hhonest, h.read, ⟨hrej.trans h.write.1, hbad.mpr ⟨ha, h.write.2⟩⟩⟩

theorem flawless_rule : JobRule (machine sz E) Flawless Flawless Flawless
    fun a _ => a.Succeeds where
  launch _ _ h := flawless_process hE h
  restart _ _ h := flawless_process hE h
  react _ _ _ _ _ ha h hr := flawless_react hE ha hr h
  park _ h := h
  split r c x w hw := by
    obtain ⟨v, -, rfl⟩ := List.mem_map.mp hw
    exact ⟨⟨Query.honest_read _, Query.honest_writing _⟩, ⟨rfl, rfl⟩, ⟨rfl, rfl⟩⟩

end Flawless

/-- A chunk that is being read completes without an error. -/
def Beside.Succeeds : Beside → Prop
  | .settle _ e => e = 0
  | _ => True

/-- Nothing fails that is done for a read or for a part. -/
def Faultless : State → Label → Prop := Guarded (fun a _ => a.Succeeds) fun b _ => b.Succeeds

theorem unfailing_place (h : Unfailing s.reqs) : Unfailing ((machine sz E).place w s).reqs := by
  unfold Machine.place
  split
  · exact h
  · exact unfailing_setErr h rfl

theorem unfailing_aside (hE : ∀ i, (E.beh false i).Succeeds) (ht : Tracked sz x.front)
    (hb : b.Succeeds) (ha : aside sz E b x q = some (x', q')) (h : Unfailing q) : Unfailing q' := by
  cases b with
  | read rg buf =>
    cases ha
    exact unfailing_read hE h
  | sample i hit =>
    obtain ⟨y, -, he⟩ := Option.map_eq_some_iff.mp ha
    cases he
    exact h
  | settle i e =>
    obtain ⟨y, hy, he⟩ := Option.map_eq_some_iff.mp ha
    cases he
    exact unfailing_settle ht hy hb h

/-- Requests get errors from parts that failed, and from what happens beside the parts. -/
theorem unfailing_step (hf : ∀ f ∈ s.frames, Flawless f.job)
    (ha : ∀ b z, l = .aside b → aside sz E b s.inner s.reqs = some z → Unfailing z.2)
    (h : Unfailing s.reqs) (hs : (machine sz E).step s l = some t) : Unfailing t.reqs := by
  cases Machine.step_sound hs with
  | arrive hq => exact unfailing_create h
  | restart hd hl hn hp => exact unfailing_place h
  | @back f fs hd hl hn =>
    have hjob := hf f (by simp [hl])
    exact unfailing_drop (unfailing_setErr h (err_of_flawless hjob))
  | launch hd hl hi htry => exact unfailing_place (unfailing_share h)
  | wait hd hl hi htry => exact unfailing_share h
  | overrun hd hl hi htry => exact unfailing_share h
  | conclude hd hl hi hr => exact unfailing_returned h
  | act hq hj hr => exact unfailing_place h
  | aside hq hr => exact ha _ _ rfl hr
  | unlock hd hl hn hp hu => exact h
  | crash hd hl hn hp hu => exact h

end Ublk.Cache.Rwt
