import Ublk.Cache.History
import Ublk.Lib.Lru

/-!
The reference map with least-recently-used replacement beside the cache. Ages are small integers and
the mark of an invalid slot is one of them: an insertion that takes an unused slot ages every live
key, and one of age `len_max - 1` reaches the mark and is lost though slots were free.
-/

namespace Ublk.Cache

variable {K β : Type} [LinearOrder K] {n r : Nat} {c c' : FlatLru K β} {k j : K} {d : Option β}
  {op : Op K β} {L : List (K × Option β)} {A B R E : List (Item K β)} {e x : Item K β}

def entry (e : Item K β) : K × Option β := (e.key, e.data)

/-- What the reference map of capacity `n` makes of an operation. -/
def refStep (n : Nat) (L : List (K × Option β)) : Op K β → List (K × Option β)
  | .update k d => Lru.put n k d L
  | .find k => Lru.use k L
  | .findMutable k f => Lru.amend k (Option.map f) (Lru.use k L)
  | .exist _ => L
  | .invalidate k => Lru.erase k L
  | .invalidateRange lo hi => L.filter fun p => ¬ (lo ≤ p.1 ∧ p.1 < hi)

def FlatLru.live (c : FlatLru K β) : List (Item K β) := c.cache.filter (Item.isValid c.lenMax)

/-- Live slots in the order of their ages are the entries of the map; the others hold nothing. -/
structure Tracks (c : FlatLru K β) (L : List (K × Option β)) : Prop where
  order : ∃ E : List (Item K β), E.Perm c.live ∧ E.Pairwise (fun a b => a.refs < b.refs) ∧
    L = E.map entry
  clear : ∀ e ∈ c.cache, e.isValid c.lenMax = false → e.data = none

/-- An insertion does not use a free slot while a live key has the last age. -/
def Spare (c : FlatLru K β) : Op K β → Prop
  | .update k _ => c.exist k = false → c.live.length < c.lenMax → ∀ e ∈ c.live, e.refs + 1 ≠ c.lenMax
  | _ => True

instance : DecidablePred (Spare c) := fun op =>
  match op with
  | .update k _ => inferInstanceAs (Decidable (c.exist k = false → c.live.length < c.lenMax →
      ∀ e ∈ c.live, e.refs + 1 ≠ c.lenMax))
  | .find _ | .findMutable _ _ | .exist _ | .invalidate _ | .invalidateRange _ _ => isTrue trivial

/-- One slot renewed, the others aged below `r`. -/
theorem tracks_renew (hc : c'.cache = A.map (Item.age r) ++ ⟨k, d, 0⟩ :: B.map (Item.age r))
    (hr : r ≤ c'.lenMax) (hm : ∀ x ∈ A ++ B, x.refs ≤ c'.lenMax)
    (hR : R.Perm ((A ++ B).filter (Item.isValid c'.lenMax)))
    (hp : R.Pairwise fun a b => a.refs < b.refs) (hne : ∀ x ∈ R, x.refs ≠ r)
    (hage : r = c'.lenMax → ∀ x ∈ R, x.refs + 1 ≠ c'.lenMax)
    (hclear : ∀ x ∈ A ++ B, x.isValid c'.lenMax = false → x.data = none) :
    Tracks c' ((k, d) :: R.map entry) := by
  have hsame : ∀ x ∈ A ++ B, (x.age r).isValid c'.lenMax = x.isValid c'.lenMax := fun x hx =>
    isValid_age_iff hr (hm x hx) fun he hv =>
      hage he x (hR.mem_iff.mpr (List.mem_filter.mpr ⟨hx, hv⟩))
  have hmem : ∀ y ∈ c'.cache, y = ⟨k, d, 0⟩ ∨ ∃ x ∈ A ++ B, x.age r = y := fun y hy => by
    simp only [hc, List.mem_append, List.mem_cons, List.mem_map] at hy
    obtain ⟨x, hx, rfl⟩ | rfl | ⟨x, hx, rfl⟩ := hy
    · exact .inr ⟨x, by simp [hx], rfl⟩
    · exact .inl rfl
    · exact .inr ⟨x, by simp [hx], rfl⟩
  refine ⟨⟨⟨k, d, 0⟩ :: R.map (Item.age r), ?_, pairwise_age hp hne, ?_⟩, fun y hy hv => ?_⟩
  · have hlive : c'.live.Perm ((⟨k, d, 0⟩ :: (A ++ B).map (Item.age r)).filter
        (Item.isValid c'.lenMax)) := by
      rw [FlatLru.live, hc, List.map_append]
      exact List.perm_middle.filter _
    refine (hlive.trans ?_).symm
    have hfilter : (A ++ B).filter (Item.isValid c'.lenMax ∘ Item.age r) =
        (A ++ B).filter (Item.isValid c'.lenMax) := List.filter_congr hsame
    rw [List.filter_cons_of_pos (isValid_new c'.lenPos), List.filter_map, hfilter]
    exact (hR.symm.map _).cons _
  · simp [entry, Function.comp_def]
  · obtain rfl | ⟨x, hx, rfl⟩ := hmem y hy
    · rw [isValid_new c'.lenPos] at hv
      cases hv
    · rw [hsame x hx] at hv
      rw [data_age, hclear x hx hv]

theorem mem_live : e ∈ c.live ↔ e ∈ c.cache ∧ e.isValid c.lenMax = true := List.mem_filter

/-- The keys of the map are the live ones. -/
theorem exist_iff (h : Tracks c L) : c.exist k = true ↔ k ∈ Lru.keys L := by
  obtain ⟨E, hE, -, rfl⟩ := h.order
  rw [FlatLru.exist_eq, Option.isSome_iff_exists]
  constructor
  · rintro ⟨d, hd⟩
    obtain ⟨e, he, rfl, hv, -⟩ := FlatLru.get_eq_some.mp hd
    have hmem := hE.mem_iff.mpr (mem_live.mpr ⟨he, hv⟩)
    simpa [Lru.keys, entry] using ⟨e, hmem, rfl⟩
  · intro hk
    obtain ⟨e, he, rfl⟩ : ∃ e ∈ E, e.key = k := by simpa [Lru.keys, entry] using hk
    obtain ⟨hmem, hv⟩ := mem_live.mp (hE.mem_iff.mp he)
    exact ⟨e.data, FlatLru.get_eq_some.mpr ⟨e, hmem, rfl, hv, rfl⟩⟩

/-- All but the slot of a key, in the order of their ages. -/
theorem without (h : Tracks c L) (hc : c.cache.Perm (e :: (A ++ B))) (hv : e.isValid c.lenMax = true) :
    ∃ R : List (Item K β), R.Perm ((A ++ B).filter (Item.isValid c.lenMax)) ∧
      R.Pairwise (fun a b => a.refs < b.refs) ∧ (∀ x ∈ R, x.refs ≠ e.refs) ∧
      Lru.erase e.key L = R.map entry := by
  obtain ⟨E, hE, hp, rfl⟩ := h.order
  have hkeys : ∀ x ∈ A ++ B, x.key ≠ e.key := by
    have hnd : (c.cache.map Item.key).Nodup := List.pairwise_map.mpr (c.sorted.imp fun h => h.ne)
    rw [(hc.map Item.key).nodup_iff] at hnd
    exact fun x hx he => (List.nodup_cons.mp hnd).1 (List.mem_map.mpr ⟨x, hx, he⟩)
  have hEc : E.Perm (e :: (A ++ B).filter (Item.isValid c.lenMax)) := by
    refine hE.trans ?_
    rw [FlatLru.live, ← List.filter_cons_of_pos hv]
    exact hc.filter _
  have hRperm : (E.filter fun x => decide (x.key ≠ e.key)).Perm
      ((A ++ B).filter (Item.isValid c.lenMax)) := by
    refine (hEc.filter _).trans ?_
    rw [List.filter_cons_of_neg (by simp), List.filter_eq_self.mpr]
    exact fun x hx => by simpa using hkeys x (List.mem_filter.mp hx).1
  refine ⟨E.filter fun x => decide (x.key ≠ e.key), hRperm, hp.filter _, fun x hx he => ?_, ?_⟩
  · have hxE := (List.mem_filter.mp hx).1
    have heE : e ∈ E := hEc.mem_iff.mpr (by simp)
    have hinj : x = e := by
      have hnd : (E.map Item.refs).Nodup := List.pairwise_map.mpr (hp.imp fun h => Nat.ne_of_lt h)
      exact List.inj_on_of_nodup_map hnd hxE heE he
    have := (List.mem_filter.mp hx).2
    simp [hinj] at this
  · rw [Lru.erase, List.filter_map]
    rfl

variable {v : Option (Item K β)}

theorem absent_way (hu : Updates c.lenMax k d c.cache A B v) (hk : c.exist k = false) :
    (∃ e, v = some e ∧ e.refs = c.lenMax) ∨ v = none ∧ c.cache.length < c.lenMax ∨
    ∃ e, v = some e ∧ c.cache.length = c.lenMax ∧ (∀ x ∈ c.cache, x.isValid c.lenMax = true) ∧
      ∀ x ∈ c.cache, x.refs ≤ e.refs := by
  cases hu.way with
  | own e hek hv =>
    have hmem : e ∈ c.cache := hu.perm.mem_iff.mpr (by simp)
    rw [FlatLru.exist_eq, FlatLru.get_eq_some.mpr ⟨e, hmem, hek, hv, rfl⟩] at hk
    cases hk
  | invalid e he => exact .inl ⟨e, rfl, he⟩
  | oldest e hlen hv hmax => exact .inr (.inr ⟨e, rfl, hlen, hv, hmax⟩)
  | free hlen => exact .inr (.inl ⟨rfl, hlen⟩)

/-- A free slot is taken: no entry is given up. -/
theorem live_of_free (hu : Updates c.lenMax k d c.cache A B v)
    (hv : v = none ∧ c.cache.length < c.lenMax ∨ ∃ e, v = some e ∧ e.refs = c.lenMax) :
    c.live.Perm ((A ++ B).filter (Item.isValid c.lenMax)) ∧ c.live.length < c.lenMax ∧
      rank c.lenMax v = c.lenMax := by
  have hperm := hu.perm.filter (Item.isValid c.lenMax)
  obtain ⟨rfl, hlen⟩ | ⟨e, rfl, he⟩ := hv
  · exact ⟨hperm, (List.length_filter_le _ _).trans_lt hlen, rfl⟩
  · have hinv : e.isValid c.lenMax = false := by simp [Item.isValid, he]
    have hperm' : c.live.Perm ((A ++ B).filter (Item.isValid c.lenMax)) := by
      rw [FlatLru.live]
      simpa [hinv] using hperm
    refine ⟨hperm', ?_, he⟩
    have hlen := hu.perm.length_eq
    have hle := List.length_filter_le (Item.isValid c.lenMax) (A ++ B)
    have hfits := c.fits
    rw [hperm'.length_eq]
    simp only [Option.toList_some, List.singleton_append, List.length_cons] at hlen
    omega

/-- The oldest gives way when every slot is taken. -/
theorem last_of_oldest (h : Tracks c L) (hu : Updates c.lenMax k d c.cache A B (some e))
    (hv : ∀ x ∈ c.cache, x.isValid c.lenMax = true) (hmax : ∀ x ∈ c.cache, x.refs ≤ e.refs) :
    ∃ R : List (Item K β), R.Perm ((A ++ B).filter (Item.isValid c.lenMax)) ∧
      R.Pairwise (fun a b => a.refs < b.refs) ∧ (∀ x ∈ R, x.refs ≠ e.refs) ∧
      L = R.map entry ++ [entry e] := by
  obtain ⟨E, hE, hp, rfl⟩ := h.order
  have hec : e ∈ c.cache := hu.perm.mem_iff.mpr (by simp)
  have heE : e ∈ E := hE.mem_iff.mpr (mem_live.mpr ⟨hec, hv e hec⟩)
  obtain ⟨R, x, rfl⟩ : ∃ R x, E = R ++ [x] :=
    ⟨E.dropLast, E.getLast (List.ne_nil_of_mem heE), (List.dropLast_append_getLast _).symm⟩
  obtain ⟨hpR, -, hlt⟩ := List.pairwise_append.mp hp
  have hx : x = e := by
    have hxc := (mem_live.mp (hE.mem_iff.mp (by simp : x ∈ R ++ [x]))).1
    obtain heR | he := List.mem_append.mp heE
    · have := hlt e heR x (by simp)
      have := hmax x hxc
      omega
    · exact (List.mem_singleton.mp he).symm
  subst hx
  refine ⟨R, ?_, hpR, fun y hy => Nat.ne_of_lt (hlt y hy x (by simp)), by simp⟩
  have hperm := hu.perm.filter (Item.isValid c.lenMax)
  simp only [Option.toList_some, List.singleton_append, List.filter_cons_of_pos (hv x hec)] at hperm
  exact List.Perm.cons_inv ((List.perm_append_singleton x R).symm.trans (hE.trans hperm))

theorem tracks_update (h : Tracks c L) (hs : Spare c (.update k d)) :
    Tracks (c.update k d).2 (Lru.put c.lenMax k d L) := by
  obtain ⟨A, B, v, hu⟩ := exists_updates c.sorted c.marked c.lenPos c.fits k d
  have hcache : (c.update k d).2.cache = A.map (Item.age (rank c.lenMax v)) ++
      ⟨k, d, 0⟩ :: B.map (Item.age (rank c.lenMax v)) := by
    simp [FlatLru.update, hu.result]
  have hm : ∀ x ∈ A ++ B, x.refs ≤ c.lenMax := fun x hx => c.marked x (hu.sub.subset hx)
  have hclear : ∀ x ∈ A ++ B, x.isValid c.lenMax = false → x.data = none := fun x hx =>
    h.clear x (hu.sub.subset hx)
  have hrank := rank_le hu c.marked
  suffices hR : ∃ R : List (Item K β), R.Perm ((A ++ B).filter (Item.isValid c.lenMax)) ∧
      R.Pairwise (fun a b => a.refs < b.refs) ∧ (∀ x ∈ R, x.refs ≠ rank c.lenMax v) ∧
      (rank c.lenMax v = c.lenMax → ∀ x ∈ R, x.refs + 1 ≠ c.lenMax) ∧
      Lru.spare c.lenMax k L = R.map entry by
    obtain ⟨R, hperm, hp, hne, hage, hL⟩ := hR
    rw [Lru.put, hL]
    exact tracks_renew hcache hrank hm hperm hp hne hage hclear
  have hkeys := exist_iff (k := k) h
  by_cases hk : c.exist k = true
  · -- its own slot
    obtain ⟨e, rfl, rfl, hv⟩ : ∃ e, v = some e ∧ e.key = k ∧ e.isValid c.lenMax = true := by
      cases hu.way with
      | own e hek hv => exact ⟨e, rfl, hek, hv⟩
      | invalid e he hno =>
        rw [FlatLru.exist_eq, FlatLru.get_eq_none.mpr] at hk
        · cases hk
        · exact fun x hx hxk => Bool.eq_false_iff.mpr (hno x hx hxk)
      | oldest e hlen hv hmax hno =>
        rw [FlatLru.exist_eq, FlatLru.get_eq_none.mpr fun x hx hxk => absurd hxk (hno x hx)] at hk
        cases hk
      | free hlen hno =>
        rw [FlatLru.exist_eq, FlatLru.get_eq_none.mpr fun x hx hxk => absurd hxk (hno x hx)] at hk
        cases hk
    obtain ⟨R, hperm, hp, hne, hL⟩ := without h hu.perm hv
    refine ⟨R, hperm, hp, hne, fun he => absurd he (isValid_iff.mp hv), ?_⟩
    rw [Lru.spare, if_pos (hkeys.mp hk), hL]
  · have hk' := Bool.eq_false_iff.mpr hk
    have hspare : Lru.spare c.lenMax k L = if L.length < c.lenMax then L else L.dropLast :=
      if_neg fun hmem => hk (hkeys.mpr hmem)
    obtain ⟨E, hE, hp, hL⟩ := h.order
    have hlen : L.length = c.live.length := by rw [hL, List.length_map, hE.length_eq]
    have hfree : v = none ∧ c.cache.length < c.lenMax ∨ (∃ e, v = some e ∧ e.refs = c.lenMax) →
        ∃ R : List (Item K β), R.Perm ((A ++ B).filter (Item.isValid c.lenMax)) ∧
          R.Pairwise (fun a b => a.refs < b.refs) ∧ (∀ x ∈ R, x.refs ≠ rank c.lenMax v) ∧
          (rank c.lenMax v = c.lenMax → ∀ x ∈ R, x.refs + 1 ≠ c.lenMax) ∧
          Lru.spare c.lenMax k L = R.map entry := fun hv => by
      obtain ⟨hperm, hlt, hr⟩ := live_of_free hu hv
      refine ⟨E, hE.trans hperm, hp, fun x hx => ?_, fun _ x hx => ?_, ?_⟩
      · rw [hr]
        exact isValid_iff.mp (mem_live.mp (hE.mem_iff.mp hx)).2
      · exact hs hk' hlt x (hE.mem_iff.mp hx)
      · rw [hspare, if_pos (hlen ▸ hlt), hL]
    obtain hv | hv | ⟨e, rfl, hfull, hval, hmax⟩ := absent_way hu hk'
    · exact hfree (.inr hv)
    · exact hfree (.inl hv)
    · obtain ⟨R, hperm, hpR, hne, hLR⟩ := last_of_oldest h hu hval hmax
      have hec : e ∈ c.cache := hu.perm.mem_iff.mpr (by simp)
      refine ⟨R, hperm, hpR, hne, fun he => absurd he (isValid_iff.mp (hval e hec)), ?_⟩
      have hlive : c.live = c.cache := List.filter_eq_self.mpr hval
      rw [hspare, if_neg (by rw [hlen, hlive]; omega), hLR, List.dropLast_concat]

theorem nodup_keys (h : Tracks c L) : (Lru.keys L).Nodup := by
  obtain ⟨E, hE, -, rfl⟩ := h.order
  have hnd : (c.cache.map Item.key).Nodup := List.pairwise_map.mpr (c.sorted.imp fun h => h.ne)
  have hsub : (c.live.map Item.key).Nodup := hnd.sublist (List.filter_sublist.map Item.key)
  have hkeys : Lru.keys (E.map entry) = E.map Item.key := List.map_map ..
  rw [hkeys]
  exact (hE.map Item.key).nodup_iff.mpr hsub

/-- A slot found, and given the buffer `d`. -/
theorem tracks_found (h : Tracks c L) (hc : c.cache = A ++ e :: B) (hv : e.isValid c.lenMax = true)
    (hmax : c'.lenMax = c.lenMax)
    (hc' : c'.cache = A.map (Item.age e.refs) ++ ⟨e.key, d, 0⟩ :: B.map (Item.age e.refs)) :
    Tracks c' ((e.key, d) :: Lru.erase e.key L) := by
  have hperm : c.cache.Perm (e :: (A ++ B)) := hc ▸ List.perm_middle
  obtain ⟨R, hR, hp, hne, hL⟩ := without h hperm hv
  have hold : ∀ x ∈ A ++ B, x ∈ c.cache := fun x hx => hperm.mem_iff.mpr (.tail _ hx)
  have hec : e ∈ c.cache := hperm.mem_iff.mpr (.head _)
  rw [hL]
  refine tracks_renew hc' (hmax ▸ c.marked e hec) ?_ (hmax ▸ hR) hp hne ?_ ?_
  · exact fun x hx => hmax ▸ c.marked x (hold x hx)
  · exact fun he => absurd (he.trans hmax) (isValid_iff.mp hv)
  · exact fun x hx => hmax ▸ h.clear x (hold x hx)

theorem entry_mem (h : Tracks c L) (he : e ∈ c.cache) (hv : e.isValid c.lenMax = true) :
    (e.key, e.data) ∈ L := by
  obtain ⟨E, hE, -, rfl⟩ := h.order
  exact List.mem_map.mpr ⟨e, hE.mem_iff.mpr (mem_live.mpr ⟨he, hv⟩), rfl⟩

theorem absent_of_get (h : Tracks c L) (hno : c.get k = none) : k ∉ Lru.keys L := fun hmem => by
  have := (exist_iff h).mpr hmem
  rw [FlatLru.exist_eq, hno] at this
  cases this

theorem tracks_find (h : Tracks c L) : Tracks (c.find k).2 (Lru.use k L) := by
  obtain ⟨A, e, B, heq, rfl, hv, hf⟩ | ⟨hf, hno⟩ := c.find_cases k
  · have hec : e ∈ c.cache := by simp [heq]
    rw [Lru.use_of_mem (nodup_keys h) (entry_mem h hec hv)]
    refine tracks_found h heq hv FlatLru.lenMax_find ?_
    have hcache : (c.find e.key).2.cache = touch A.length c.cache := by
      simp [FlatLru.find, hf, FlatLru.withSlots]
    rw [hcache, heq, touch_append]
  · have hsame : (c.find k).2 = c := by simp [FlatLru.find, hf]
    rw [hsame, Lru.use_of_absent (absent_of_get h hno)]
    exact h

theorem tracks_findMutable {f : β → β} (h : Tracks c L) :
    Tracks (c.findMutable k f).2 (Lru.amend k (Option.map f) (Lru.use k L)) := by
  obtain ⟨A, e, B, heq, rfl, hv, hf⟩ | ⟨hf, hno⟩ := c.find_cases k
  · have hec : e ∈ c.cache := by simp [heq]
    rw [Lru.use_of_mem (nodup_keys h) (entry_mem h hec hv), Lru.amend, List.map_cons, if_pos rfl,
      ← Lru.amend, Lru.amend_of_absent Lru.not_mem_keys_erase]
    refine tracks_found h heq hv ?_ (FlatLru.cache_findMutable heq hf)
    simp [FlatLru.findMutable, FlatLru.find, hf, FlatLru.dataView, c.itemPos.ne',
      FlatLru.writeThrough, FlatLru.withSlots]
  · have hsame : (c.findMutable k f).2 = c := by simp [FlatLru.findMutable, FlatLru.find, hf]
    have habs := absent_of_get h hno
    rw [hsame, Lru.use_of_absent habs, Lru.amend_of_absent habs]
    exact h

/-- The slots of the keys that `p` picks lose their buffers. -/
theorem tracks_drop {p : K → Bool} (h : Tracks c L) (hmax : c'.lenMax = c.lenMax)
    (hc : c'.cache = c.cache.map fun e => if p e.key then e.invalidate c.lenMax else e) :
    Tracks c' (L.filter fun q => !p q.1) := by
  obtain ⟨E, hE, hp, rfl⟩ := h.order
  refine ⟨⟨E.filter fun e => !p e.key, ?_, hp.filter _, ?_⟩, fun x hx hv => ?_⟩
  · rw [FlatLru.live, hc, hmax, live_drop]
    exact hE.filter _
  · rw [List.filter_map]
    rfl
  · rw [hc] at hx
    obtain ⟨y, hy, rfl⟩ := List.mem_map.mp hx
    split at hv <;> rename_i hpy
    · rw [if_pos hpy]
      rfl
    · rw [if_neg hpy]
      exact h.clear y hy (hmax ▸ hv)

theorem tracks_invalidate (h : Tracks c L) : Tracks (c.invalidate k) (Lru.erase k L) := by
  obtain ⟨A, e, B, heq, rfl, hv, hf⟩ | ⟨hf, hno⟩ := c.find_cases k
  · have hL : Lru.erase e.key L = L.filter fun q => !decide (q.1 = e.key) := by
      simp [Lru.erase]
    rw [hL]
    refine tracks_drop (p := fun j => decide (j = e.key)) h ?_ ?_
    · simp [FlatLru.invalidate, hf, FlatLru.withSlots]
    have hcache : (c.invalidate e.key).cache =
        c.cache.modify A.length (Item.invalidate c.lenMax) := by
      simp [FlatLru.invalidate, hf, FlatLru.withSlots]
    have hs := c.sorted
    rw [heq] at hs
    obtain ⟨-, hB, hA⟩ := List.pairwise_append.mp hs
    have hidA : A.map (fun x => if decide (x.key = e.key) = true then x.invalidate c.lenMax else x) =
        A := by
      rw [List.map_congr_left fun x hx => if_neg fun he =>
        (hA x hx e (.head _)).ne (of_decide_eq_true he), List.map_id']
    have hidB : B.map (fun x => if decide (x.key = e.key) = true then x.invalidate c.lenMax else x) =
        B := by
      rw [List.map_congr_left fun x hx => if_neg fun he =>
        ((List.pairwise_cons.mp hB).1 x hx).ne' (of_decide_eq_true he), List.map_id']
    rw [hcache, heq, modify_append, List.map_append, List.map_cons, hidA, hidB]
    simp
  · have hsame : c.invalidate k = c := by simp [FlatLru.invalidate, hf]
    rw [hsame, Lru.erase_of_absent (absent_of_get h hno)]
    exact h

theorem tracks_step (h : Tracks c L) (hs : Spare c op) (hstep : c.step op = some c') :
    Tracks c' (refStep c.lenMax L op) := by
  cases op with
  | update k d => cases hstep; exact tracks_update h hs
  | find k => cases hstep; exact tracks_find h
  | findMutable k f => cases hstep; exact tracks_findMutable h
  | exist k => cases hstep; exact h
  | invalidate k => cases hstep; exact tracks_invalidate h
  | invalidateRange lo hi =>
    change c.invalidateRange lo hi = some c' at hstep
    unfold FlatLru.invalidateRange at hstep
    split at hstep
    · cases hstep
      have hL : refStep c.lenMax L (.invalidateRange lo hi) =
          L.filter fun q => !decide (lo ≤ q.1 ∧ q.1 < hi) := by
        simp only [refStep, decide_not]
      rw [hL]
      refine tracks_drop (p := fun j => decide (lo ≤ j ∧ j < hi)) h rfl ?_
      simp only [FlatLru.withSlots, invalidateRange_eq c.sorted, decide_eq_true_eq]
    · cases hstep

/-- A live key of the last age is lost when a free slot is used. -/
theorem lost_of_not_spare (h : Tracks c L) (hs : ¬ Spare c op) (hstep : c.step op = some c') :
    ∃ j, j ∈ Lru.keys (refStep c.lenMax L op) ∧ c'.exist j = false := by
  cases op with
  | update k d =>
    cases hstep
    simp only [Spare, not_forall, Decidable.not_not] at hs
    obtain ⟨hk, hlen, e, he, hlast⟩ := hs
    obtain ⟨A, B, v, hu⟩ := exists_updates c.sorted c.marked c.lenPos c.fits k d
    have hfree : v = none ∧ c.cache.length < c.lenMax ∨ ∃ e, v = some e ∧ e.refs = c.lenMax := by
      obtain hv | hv | ⟨e, -, hfull, hval, -⟩ := absent_way hu hk
      · exact .inr hv
      · exact .inl hv
      · rw [FlatLru.live, List.filter_eq_self.mpr hval] at hlen
        omega
    obtain ⟨hperm, -, hrank⟩ := live_of_free hu hfree
    obtain ⟨hec, hv⟩ := mem_live.mp he
    have heAB := (List.mem_filter.mp (hperm.mem_iff.mp he)).1
    have hek : e.key ≠ k := by
      rintro rfl
      rw [FlatLru.exist_eq, FlatLru.get_eq_some.mpr ⟨e, hec, rfl, hv, rfl⟩] at hk
      cases hk
    refine ⟨e.key, ?_, ?_⟩
    · have hLlen : L.length = c.live.length := by
        obtain ⟨E, hE, -, rfl⟩ := h.order
        rw [List.length_map, hE.length_eq]
      have hkL : k ∉ Lru.keys L := fun hmem => by
        rw [(exist_iff h).mpr hmem] at hk
        cases hk
      rw [refStep, Lru.put, Lru.spare, if_neg hkL, if_pos (hLlen ▸ hlen)]
      exact .tail _ (List.mem_map.mpr ⟨_, entry_mem h hec hv, rfl⟩)
    · rw [FlatLru.exist_eq, FlatLru.get_eq_none.mpr, Option.isSome_none]
      have hcache : (c.update k d).2.cache = A.map (Item.age c.lenMax) ++
          ⟨k, d, 0⟩ :: B.map (Item.age c.lenMax) := by
        have hres := hu.result
        rw [hrank] at hres
        simp [FlatLru.update, hres]
      have hold : e.age c.lenMax ∈ (c.update k d).2.cache := by
        rw [hcache]
        obtain hA | hB := List.mem_append.mp heAB
        · exact List.mem_append_left _ (List.mem_map_of_mem hA)
        · exact List.mem_append_right _ (.tail _ (List.mem_map_of_mem hB))
      intro x hx hxk
      rw [FlatLru.key_inj (c.update k d).2.sorted hx hold (hxk.trans key_age.symm)]
      have hlt : e.refs < c.lenMax := by omega
      have hmark : (e.age c.lenMax).refs = c.lenMax := (refs_age_of_lt hlt).trans hlast
      exact Bool.eq_false_iff.mpr fun hv' => isValid_iff.mp hv' hmark
  | _ => exact absurd trivial hs

/-- The entry of the map that an update gives back. -/
theorem handBack_update (h : Tracks c L) (hk : c.exist k = false) :
    (c.update k d).1 = (Lru.dropped c.lenMax L).bind fun p => p.2.map fun b => (p.1, b) := by
  obtain ⟨A, B, v, hu⟩ := exists_updates c.sorted c.marked c.lenPos c.fits k d
  have hret : (c.update k d).1 = v.bind Item.handBack := by
    change (Cache.update c.lenMax k d c.cache).1 = _
    rw [hu.result]
  have hLlen : L.length = c.live.length := by
    obtain ⟨E, hE, -, rfl⟩ := h.order
    rw [List.length_map, hE.length_eq]
  have hnone : v = none ∧ c.cache.length < c.lenMax ∨ (∃ e, v = some e ∧ e.refs = c.lenMax) →
      Lru.dropped c.lenMax L = none := fun hv => by
    obtain ⟨-, hlt, -⟩ := live_of_free hu hv
    rw [Lru.dropped, if_pos (hLlen ▸ hlt)]
  obtain ⟨e, rfl, he⟩ | ⟨rfl, hlen⟩ | ⟨e, rfl, hfull, hval, hmax⟩ := absent_way hu hk
  · have hec : e ∈ c.cache := hu.perm.mem_iff.mpr (.head _)
    have hdata := h.clear e hec (Bool.eq_false_iff.mpr fun hv => isValid_iff.mp hv he)
    rw [hret, hnone (.inr ⟨e, rfl, he⟩), Option.bind_some, Item.handBack, hdata]
    rfl
  · rw [hret, hnone (.inl ⟨rfl, hlen⟩)]
    rfl
  · obtain ⟨R, -, -, -, hL⟩ := last_of_oldest h hu hval hmax
    have hfull' : ¬ L.length < c.lenMax := by
      rw [hLlen, FlatLru.live, List.filter_eq_self.mpr hval]
      omega
    rw [hret, Lru.dropped, if_neg hfull', hL, List.getLast?_concat]
    rfl

/-- The cache and the reference map side by side. -/
def pairStep (s : FlatLru K β × List (K × Option β)) (op : Op K β) :
    Option (FlatLru K β × List (K × Option β)) :=
  (s.1.step op).map fun c => (c, refStep s.1.lenMax s.2 op)

/-- The same keys are live, and an update of an absent key gives back what the map drops. -/
structure Alike (s : FlatLru K β × List (K × Option β)) : Prop where
  keys : ∀ k, s.1.exist k = true ↔ k ∈ Lru.keys s.2
  back : ∀ k d, s.1.exist k = false → (s.1.update k d).1 =
    (Lru.dropped s.1.lenMax s.2).bind fun p => p.2.map fun b => (p.1, b)

theorem alike_of_tracks (h : Tracks c L) : Alike (c, L) :=
  ⟨fun _ => exist_iff h, fun _ _ hk => handBack_update h hk⟩

theorem tracks_run {s t : FlatLru K β × List (K × Option β)} (h : Tracks s.1 s.2)
    (hrun : Lts.Run pairStep (fun s op => Spare s.1 op) s t) : Tracks t.1 t.2 := by
  refine Lts.run_invariant (I := fun s => Tracks s.1 s.2) hrun h fun a op b ha hok hs => ?_
  obtain ⟨c', hc', rfl⟩ := Option.map_eq_some_iff.mp hs
  exact tracks_step ha hok hc'

/-- As long as no insertion uses a free slot beside a live key of the last age the cache keeps what
the map keeps, and the first that does ends it. -/
theorem alike_run {sz : Nat} {hn : 0 < n} {hsz : 0 < sz} {s : FlatLru K β × List (K × Option β)}
    (hrun : Lts.Run pairStep (fun s op => Spare s.1 op) (.empty n sz hn hsz, []) s) :
    Alike s ∧ ∀ op t, pairStep s op = some t → (Alike t ↔ Spare s.1 op) := by
  have hempty : Tracks (FlatLru.empty (K := K) (β := β) n sz hn hsz) [] :=
    ⟨⟨[], .nil, .nil, rfl⟩, fun e he => by cases he⟩
  have h := tracks_run hempty hrun
  refine ⟨alike_of_tracks h, fun op t hs => ?_⟩
  obtain ⟨c', hc', rfl⟩ := Option.map_eq_some_iff.mp hs
  constructor
  · intro ha
    by_contra hnot
    obtain ⟨j, hj, hlost⟩ := lost_of_not_spare h hnot hc'
    have := (ha.keys j).mpr hj
    rw [hlost] at this
    cases this
  · exact fun hok => alike_of_tracks (tracks_step h hok hc')

/-- Two slots. -/
def smallRun (ops : List (Op Nat Nat)) : Option (FlatLru Nat Nat × List (Nat × Option Nat)) :=
  Lts.exec pairStep (.empty 2 1 (by decide) (by decide), []) ops

def evicting : List (Op Nat Nat) := [.update 1 (some 7), .update 2 (some 8), .find 1, .update 3 (some 9)]

theorem alike_run_evicting : ∃ s, smallRun evicting = some s ∧
    Alike s ∧ ∀ op t, pairStep s op = some t → (Alike t ↔ Spare s.1 op) := by
  obtain ⟨s, hs⟩ := Option.isSome_iff_exists.mp (by decide : (smallRun evicting).isSome)
  exact ⟨s, hs, alike_run (Lts.run_of_along (by decide) hs)⟩

/-- A key is invalidated, another one comes: the key that was there all the time is gone. -/
def reusing : List (Op Nat Nat) :=
  [.update 1 (some 7), .update 2 (some 8), .invalidate 2, .update 3 (some 9)]

theorem not_alike : ¬ ∀ (n sz : Nat) (hn : 0 < n) (hsz : 0 < sz) (ops : List (Op Nat Nat))
    (s : FlatLru Nat Nat × List (Nat × Option Nat)),
    Lts.exec pairStep (.empty n sz hn hsz, []) ops = some s → Alike s := fun h => by
  obtain ⟨s, hs⟩ := Option.isSome_iff_exists.mp (by decide : (smallRun reusing).isSome)
  have hlost : (smallRun reusing).map (fun s => (s.1.exist 1, decide (1 ∈ Lru.keys s.2))) =
      some (false, true) := by decide
  rw [hs] at hlost
  obtain ⟨hgone, hkept⟩ := Prod.mk.inj (Option.some.inj hlost)
  have := ((h 2 1 _ _ reusing s hs).keys 1).mpr (of_decide_eq_true hkept)
  rw [hgone] at this
  cases this

end Ublk.Cache
