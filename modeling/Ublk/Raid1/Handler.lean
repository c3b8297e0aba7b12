import Ublk.Raid1.Flat
import Ublk.Serves

/-! A target over mirrors that hold the same bytes is a handler itself. -/
namespace Ublk.Raid1

open Words

/-- What is below `2 ^ 64` of a handler. -/
def Mirror.ofDevice (D : Device) : Mirror where
  State := D.State
  bytes := D.bytes
  read s off v := if off + v.len < 2 ^ 64 then D.read s off v else none
  write s off v src := if off + v.len < 2 ^ 64 then D.write s off v src else none
  read_bytes s off v got t hf h := by
    split at h
    · rename_i hroom
      obtain ⟨hgot, hbytes⟩ := D.read_bytes s off v got t ⟨Nat.ne_of_gt hf.pos, hroom⟩ h
      refine ⟨fun i hi => ?_, hbytes⟩
      rw [wrap_of_lt (by omega)]
      exact hgot i hi
    · cases h
  write_bytes s off v src t hf h := by
    split at h
    · rename_i hroom
      rw [store_eq (Nat.le_refl _) hroom]
      exact D.write_bytes s off v src t ⟨Nat.ne_of_gt hf.pos, hroom⟩ h
    · cases h

variable {C : Config} {ms : Mirrors C} {s t : Seq C ms} {off fuel rb lim : Nat} {v : Span}
  {hid : Fin C.n} {ss : List (Sub × Fin C.n)} {r : Transfer} {out : List (List Byte)}

/-- The mirrors hold the same bytes, and the reads so far were shared out evenly. -/
def Agreed (s : Seq C ms) : Prop := Level s ∧ ∃ a, Holds s a

theorem agreed_process (hf : fits r) (hs : Agreed s) (hp : Seq.process ms s r = some (out, t)) :
    Agreed t := by
  obtain ⟨hl, a, ha⟩ := hs
  obtain ⟨hlt, -, ht⟩ := process_holds hf ha hl hp
  exact ⟨hlt, _, ht⟩

/-- The bytes of the first mirror. -/
def Seq.content (s : Seq C ms) : Nat → Byte := (ms ⟨0, C.n_pos⟩).bytes (s.mirrors ⟨0, C.n_pos⟩)

theorem process_content (hf : fits r) (hs : Agreed s) (hp : Seq.process ms s r = some (out, t)) :
    out = (flat s.content [r]).1 ∧ t.content = (flat s.content [r]).2 := by
  obtain ⟨hl, a, ha⟩ := hs
  obtain ⟨-, hout, ht⟩ := process_holds hf ha hl hp
  obtain rfl : s.content = a := ha _
  exact ⟨hout, ht _⟩

theorem fits_of_sized (h : Sized off v) : Fits off v := by
  have := h.room
  have := h.pos
  exact ⟨by omega, by omega, by omega⟩

/-- Mirrors that hold the same bytes. -/
abbrev Alike (C : Config) (hs : Fin C.n → Device) : Type :=
  { s : Seq C fun h => Mirror.ofDevice (hs h) // Agreed s }

/-- A request that ends below `2 ^ 64`. -/
def Alike.process {C : Config} {hs : Fin C.n → Device} (s : Alike C hs) (r : Transfer) (hr : fits r) :
    Option (List (List Byte) × Alike C hs) :=
  match hp : Seq.process _ s.1 r with
  | some (out, t) => some (out, ⟨t, agreed_process hr s.2 hp⟩)
  | none => none

variable {hs : Fin C.n → Device} {x y : Alike C hs}

theorem alike_content (hf : fits r) (hp : x.process r hf = some (out, y)) :
    out = (flat x.1.content [r]).1 ∧ y.1.content = (flat x.1.content [r]).2 := by
  unfold Alike.process at hp
  split at hp
  · rename_i out u hu
    cases hp
    exact process_content hf x.2 hu
  · cases hp

/-- The target, a handler itself. -/
def target (C : Config) (hs : Fin C.n → Device) : Device where
  State := Alike C hs
  bytes s := s.1.content
  read s off v :=
    if hv : off + v.len < 2 ^ 64 ∧ v.len ≠ 0 then
      (s.process (.read off v) (fits_of_sized ⟨hv.2, hv.1⟩)).map fun x =>
        (fun i => x.1.flatten.getD i 0, x.2)
    else none
  write s off v src :=
    if hv : off + v.len < 2 ^ 64 ∧ v.len ≠ 0 then
      (s.process (.write off v src) (fits_of_sized ⟨hv.2, hv.1⟩)).map Prod.snd
    else none
  read_bytes s off v got t hv h := by
    rw [dif_pos ⟨hv.room, hv.pos⟩] at h
    obtain ⟨⟨out, u⟩, hp, he⟩ := Option.map_eq_some_iff.mp h
    cases he
    obtain ⟨rfl, hu⟩ := alike_content (r := .read off v) (fits_of_sized hv) hp
    refine ⟨fun i hi => ?_, hu⟩
    rw [flat, flat, List.flatten_cons, List.flatten_nil, List.append_nil,
      offsets_eq (Nat.le_of_lt hv.room)]
    simp [List.getD, hi]
  write_bytes s off v src t hv h := by
    rw [dif_pos ⟨hv.room, hv.pos⟩] at h
    obtain ⟨⟨out, u⟩, hp, he⟩ := Option.map_eq_some_iff.mp h
    cases he
    obtain ⟨-, hu⟩ := alike_content (r := .write off v src) (fits_of_sized hv) hp
    exact hu.trans (store_eq (Nat.le_refl _) hv.room)

/-- Chunks of whole sectors are whole sectors. -/
theorem chunks_dvd {d : Nat} (hd : d ∣ C.readStripSz) (hv : d ∣ v.len) (hrb : d ∣ rb)
    (hle : rb ≤ v.len) (hlen : v.len < 2 ^ 64) (h : chunks C off v fuel rb hid = some ss) :
    ∀ s ∈ ss, d ∣ s.1.pos ∧ d ∣ s.1.len := by
  induction fuel generalizing rb hid ss with
  | zero => cases h
  | succ fuel ih =>
    rw [chunks] at h
    split at h
    · rw [sub_of_le hle hlen] at h
      have hchunk : d ∣ min C.readStripSz (v.len - rb) := by
        rcases Nat.le_total C.readStripSz (v.len - rb) with hle' | hle'
        · rwa [Nat.min_eq_left hle']
        · rw [Nat.min_eq_right hle']
          exact Nat.dvd_sub hv hrb
      obtain ⟨u, -, h⟩ := Option.bind_eq_some_iff.mp h
      obtain ⟨rest, hrest, h⟩ := Option.bind_eq_some_iff.mp h
      cases h
      rw [wrap_of_lt (by omega)] at hrest
      intro s hs
      rcases List.mem_cons.mp hs with rfl | hs
      · exact ⟨hrb, hchunk⟩
      · exact ih (Nat.dvd_add hrb hchunk) (by omega) hrest s hs
    · cases h
      intro s hs
      cases hs

theorem readAll_total {s : Seq C fun h => .ofDevice (hs h)} {buf : Nat → Byte}
    (hD : ∀ h, (hs h).Serves lim)
    (hp : ∀ p ∈ ss, p.1.hid < C.n ∧ Whole lim p.1.off ⟨v.addr + p.1.pos, p.1.len⟩) :
    ∃ r, Seq.readAll _ v ss s buf = some r := by
  induction ss generalizing s buf with
  | nil => exact ⟨_, rfl⟩
  | cons x ss ih =>
    obtain ⟨hhid, hwhole⟩ := hp x (.head _)
    have hroom : x.1.off + x.1.len < 2 ^ 64 := (sized_of_whole (hD s.next).word hwhole).room
    obtain ⟨r, hread⟩ := (hD ⟨x.1.hid, hhid⟩).read (s.mirrors _) _ _ hwhole
    have hread : (Mirror.ofDevice (hs ⟨x.1.hid, hhid⟩)).read (s.mirrors _) x.1.off
        ⟨v.addr + x.1.pos, x.1.len⟩ = some r := (if_pos hroom).trans hread
    rw [Seq.readAll, dif_pos hhid, hread]
    exact ih fun q hq => hp q (.tail _ hq)

theorem writeAll_total {s : Seq C fun h => .ofDevice (hs h)} {src : Nat → Byte}
    (hD : ∀ h, (hs h).Serves lim) (hv : Whole lim off v)
    (hp : ∀ p ∈ ss, p.1.hid < C.n ∧ p.1.off = off) :
    ∃ t, Seq.writeAll _ v src ss s = some t := by
  induction ss generalizing s with
  | nil => exact ⟨_, rfl⟩
  | cons x ss ih =>
    obtain ⟨hhid, hoff⟩ := hp x (.head _)
    have hroom : off + v.len < 2 ^ 64 := (sized_of_whole (hD s.next).word hv).room
    obtain ⟨u, hwrite⟩ := (hD ⟨x.1.hid, hhid⟩).write (s.mirrors _) _ _ src hv
    have hwrite : (Mirror.ofDevice (hs ⟨x.1.hid, hhid⟩)).write (s.mirrors _) off v src = some u :=
      (if_pos hroom).trans hwrite
    rw [Seq.writeAll, dif_pos hhid, hoff, hwrite]
    exact ih fun q hq => hp q (.tail _ hq)

theorem process_total {s : Seq C fun h => .ofDevice (hs h)} (hD : ∀ h, (hs h).Serves lim)
    (hr : r.Whole lim) : ∃ x, Seq.process _ s r = some x := by
  have hword := (hD s.next).word
  cases r with
  | read off v =>
    have hv : Whole lim off v := hr
    have hsized := sized_of_whole hword hv
    have hroom := hv.room
    obtain ⟨ss, hss, hc, hall⟩ := @chunks_total C off (v.len + 1) 0 v s.next hsized.room
      (Nat.zero_le _) (by omega)
    have hdvd := chunks_dvd C.sectors hv.sectorSize (Nat.dvd_zero _) (Nat.zero_le _) (by omega) hss
    obtain ⟨x, hx⟩ := @readAll_total C lim v ss hs s (fun _ => 0) hD fun p hp => by
      obtain ⟨hhid, hoff⟩ := hall p hp
      obtain ⟨hpos, hlen⟩ := hdvd p hp
      obtain ⟨hsome, hend⟩ := (bounds_of_consecutive hc).2 _ (List.mem_map_of_mem hp)
      refine ⟨hhid, hsome, hoff ▸ Nat.dvd_add hv.sectorOff hpos, hlen,
        Nat.dvd_add hv.addr (Nat.dvd_trans (by decide) hpos), ?_⟩
      dsimp only
      omega
    exact ⟨_, by simp only [Seq.process, route, Bool.false_eq_true, if_false, hss,
      Option.bind_some, hx, Option.map_some]; rfl⟩
  | write off v src =>
    obtain ⟨t, ht⟩ := @writeAll_total C off lim v (copies C off v s.next) hs s src hD hr
      (by simp [copies])
    exact ⟨_, by simp only [Seq.process, route, if_true, Option.bind_some, ht, Option.map_some]; rfl⟩

end Ublk.Raid1
