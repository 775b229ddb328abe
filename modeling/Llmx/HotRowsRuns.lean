import Llmx.HotRowsSafe

namespace Llmx

open Runs

namespace WeightRows

open OpenIndex

namespace Store

variable {row : Nat} {bytes : Bytes} {s t t' u : Store} {news : List Nat}

/-- A sweep comes to a slot of `news` only past all the others, their references dropped. -/
structure Fresh (s : Store) (news : List Nat) : Prop where
  used : ∀ p ∈ news, p < s.used
  dropped : ∀ p ∈ news, s.refs p = 0 → ∀ q < s.used, q ∉ news →
    s.refs q = 0 ∧ ahead s.slots s.hand q < ahead s.slots s.hand p
  marked : ∀ p ∈ news, s.refs p ≠ 0 → ∀ q < s.used, q ∉ news → s.refs q ≠ 0 →
    ahead s.slots s.hand q < ahead s.slots s.hand p

theorem Fresh.turned (h : Fresh s news) (hhand : s.hand < s.slots) (hused : s.used ≤ s.slots)
    (hne : s.refs s.hand ≠ 0) : Fresh s.turned news := by
  have hself := ahead_self s.slots s.hand
  have hback := ahead_back hhand
  have hstep : ∀ q < s.used, q ≠ s.hand →
      ahead s.slots (after s.slots s.hand 1) q + 1 = ahead s.slots s.hand q := by
    intro q hq hqh
    exact ahead_next hhand (by omega) hqh.symm
  have hrefs : ∀ q, q ≠ s.hand → s.turned.refs q = s.refs q := fun q hq => update_ne hq
  have hdrop : s.turned.refs s.hand = 0 := Function.update_self _ _ _
  refine ⟨h.used, fun p hp hp0 q hq hqn => ?_, fun p hp hp0 q hq hqn hq0 => ?_⟩
  · have hq : q < s.used := hq
    rw [turned_hand hhand]
    show _ ∧ ahead s.slots _ q < ahead s.slots _ p
    by_cases hph : p = s.hand
    · subst hph
      have hqh : q ≠ s.hand := fun heq => hqn (by rw [heq]; exact hp)
      rw [hrefs q hqh]
      have hlt := ahead_lt hhand (by omega : q < s.slots)
      have hsq := hstep q hq hqh
      refine ⟨?_, by omega⟩
      apply Decidable.byContradiction
      intro hq0
      have hlt' := h.marked s.hand hp hne q hq hqn hq0
      omega
    · rw [hrefs p hph] at hp0
      have hqh : q ≠ s.hand := by
        intro heq
        have h0 := (h.dropped p hp hp0 q hq hqn).1
        rw [heq] at h0
        exact hne h0
      obtain ⟨h0, hlt⟩ := h.dropped p hp hp0 q hq hqn
      have hsq := hstep q hq hqh
      have hsp := hstep p (h.used p hp) hph
      rw [hrefs q hqh]
      exact ⟨h0, by omega⟩
  · have hq : q < s.used := hq
    have hph : p ≠ s.hand := fun heq => hp0 (by rw [heq]; exact hdrop)
    have hqh : q ≠ s.hand := fun heq => hq0 (by rw [heq]; exact hdrop)
    rw [hrefs p hph] at hp0
    rw [hrefs q hqh] at hq0
    have hlt := h.marked p hp hp0 q hq hqn hq0
    have hsq := hstep q hq hqh
    have hsp := hstep p (h.used p hp) hph
    rw [turned_hand hhand]
    show ahead s.slots _ q < ahead s.slots _ p
    omega

/-- While slots are new, a row goes to the last used place and the hand stays at the first. -/
theorem Fresh.put_new (h : Fresh s news) (hhand : s.hand = 0)
    (ht' : Filled s.used row bytes s.grow t') (hsl : t'.slots = s.slots) :
    Fresh t' (s.used :: news) := by
  have hused : t'.used = s.used + 1 := ht'.used_eq
  have hhand' : t'.hand = s.hand := ht'.hand_eq
  have hself : t'.refs s.used = 1 := by rw [ht'.refs_eq]; exact Function.update_self _ _ _
  have hrefs : ∀ q, q ≠ s.used → t'.refs q = s.refs q := by
    intro q hq
    rw [ht'.refs_eq]
    exact update_ne hq
  have hahead : ∀ q, ahead t'.slots t'.hand q = q := by
    intro q
    unfold ahead
    rw [hhand', hhand, if_pos (Nat.zero_le q), Nat.sub_zero]
  refine ⟨fun p hp => ?_, fun p hp hp0 q hq hqn => ?_, fun p hp hp0 q hq hqn hq0 => ?_⟩
  · rcases List.mem_cons.mp hp with rfl | hp
    · omega
    · have hpu := h.used p hp
      omega
  · obtain ⟨hqu, hqn⟩ := not_or.mp (fun hc => hqn (List.mem_cons.mpr hc))
    rcases List.mem_cons.mp hp with rfl | hp
    · rw [hself] at hp0
      omega
    · have hpu := h.used p hp
      rw [hrefs p (by omega)] at hp0
      rw [hrefs q hqu, hsl, hhand']
      exact h.dropped p hp hp0 q (by omega) hqn
  · obtain ⟨hqu, hqn⟩ := not_or.mp (fun hc => hqn (List.mem_cons.mpr hc))
    rcases List.mem_cons.mp hp with rfl | hp
    · rw [hahead, hahead]
      omega
    · have hpu := h.used p hp
      rw [hrefs p (by omega)] at hp0
      rw [hrefs q hqu] at hq0
      rw [hsl, hhand']
      exact h.marked p hp hp0 q (by omega) hqn hq0

/-- The slot a sweep ends at joins `news`, the hand past it. -/
theorem Fresh.put_old (h : Fresh u news) (hhand : u.hand < u.slots) (hused : u.used ≤ u.slots)
    (hnew : u.hand ∉ news) (hrefs : t.refs = u.refs) (ht : t.used = u.used)
    (hth : t.hand = (u.hand + 1) % u.slots) (ht' : Filled u.hand row bytes t t')
    (hsl : t'.slots = u.slots) (hlt : u.hand < u.used) : Fresh t' (u.hand :: news) := by
  have husedt : t'.used = u.used := ht'.used_eq.trans ht
  have hself : t'.refs u.hand = 1 := by rw [ht'.refs_eq]; exact Function.update_self _ _ _
  have hrefs : ∀ q, q ≠ u.hand → t'.refs q = u.refs q := by
    intro q hq
    rw [ht'.refs_eq, update_ne hq, hrefs]
  have hhand' : t'.hand = after u.slots u.hand 1 := by
    rw [ht'.hand_eq, hth]
    exact turned_hand hhand
  have hback := ahead_back hhand
  have hstep : ∀ q < u.used, q ≠ u.hand →
      ahead u.slots (after u.slots u.hand 1) q + 1 = ahead u.slots u.hand q := by
    intro q hq hqh
    exact ahead_next hhand (by omega) hqh.symm
  have hne : ∀ p ∈ news, p ≠ u.hand := fun p hp heq => hnew (by rw [← heq]; exact hp)
  refine ⟨fun p hp => ?_, fun p hp hp0 q hq hqn => ?_, fun p hp hp0 q hq hqn hq0 => ?_⟩
  · rcases List.mem_cons.mp hp with rfl | hp
    · omega
    · have hpu := h.used p hp
      omega
  · obtain ⟨hqh, hqn⟩ := not_or.mp (fun hc => hqn (List.mem_cons.mpr hc))
    rcases List.mem_cons.mp hp with rfl | hp
    · rw [hself] at hp0
      omega
    · rw [hrefs p (hne p hp)] at hp0
      obtain ⟨h0, hlt'⟩ := h.dropped p hp hp0 q (by omega) hqn
      have hsq := hstep q (by omega) hqh
      have hsp := hstep p (h.used p hp) (hne p hp)
      rw [hrefs q hqh, hsl, hhand']
      exact ⟨h0, by omega⟩
  · obtain ⟨hqh, hqn⟩ := not_or.mp (fun hc => hqn (List.mem_cons.mpr hc))
    have hsq := hstep q (by omega) hqh
    rw [hsl, hhand']
    rcases List.mem_cons.mp hp with rfl | hp
    · have hql := ahead_lt hhand (by omega : q < u.slots)
      omega
    · rw [hrefs p (hne p hp)] at hp0
      rw [hrefs q hqh] at hq0
      have hlt' := h.marked p hp hp0 q (by omega) hqn hq0
      have hsp := hstep p (h.used p hp) (hne p hp)
      omega

/-- With fewer than all slots in `news`, a sweep ends at another. -/
theorem Fresh.sweep_new (h : Fresh u news) (h0 : u.refs u.hand = 0) {m : Nat}
    (hused : u.used = m) (hlen : news.length < m) : u.hand ∉ news := by
  intro hmem
  have hex : ∃ q < u.used, q ∉ news := by
    apply Decidable.byContradiction
    intro hcon
    have hsub : List.range m ⊆ news := by
      intro q hq
      apply Decidable.byContradiction
      intro hqn
      exact hcon ⟨q, by rw [hused]; exact List.mem_range.mp hq, hqn⟩
    have hle := (List.subperm_of_subset List.nodup_range hsub).length_le
    rw [List.length_range] at hle
    omega
  obtain ⟨q, hq, hqn⟩ := hex
  have hlt := (h.dropped u.hand hmem h0 q hq hqn).2
  rw [ahead_self] at hlt
  omega

end Store

open Store

variable {hash : Nat → Nat} {slots rowBytes k : Nat} {base new : List Put} {s t : HotRows}

/-- The puts since `base`; while they are no more than the slots, none gave up a row of one before. -/
structure Recent (slots : Nat) (base new : List Put) (s : HotRows) : Prop where
  puts_eq : s.puts = base ++ new
  fresh : new.length ≤ slots → ∃ news, news.length = new.length ∧ Fresh s.store news ∧
    (∀ x ∈ new, ∃ p ∈ news, s.store.ids p = x.row) ∧
      new.Pairwise fun p q => q.gaveUp ≠ some p.row

theorem Recent.snoc {x : Put} {news : List Nat} {slot : Nat} {t' : HotRows}
    (hputs : t'.puts = base ++ (new ++ [x]))
    (hlen : news.length = new.length) (hfresh : Fresh t'.store (slot :: news))
    (hids : t'.store.ids = Function.update s.store.ids slot x.row) (hnot : slot ∉ news)
    (hrows : ∀ x ∈ new, ∃ p ∈ news, s.store.ids p = x.row)
    (hpairs : new.Pairwise fun p q => q.gaveUp ≠ some p.row)
    (hgave : ∀ p ∈ news, x.gaveUp ≠ some (s.store.ids p)) : Recent slots base (new ++ [x]) t' := by
  refine ⟨hputs, fun _ => ⟨slot :: news, ?_, hfresh, fun y hy => ?_, ?_⟩⟩
  · rw [List.length_cons, List.length_append, List.length_singleton, hlen]
  · rw [hids]
    rcases List.mem_append.mp hy with hy | hy
    · obtain ⟨p, hp, hid⟩ := hrows y hy
      refine ⟨p, List.mem_cons_of_mem _ hp, ?_⟩
      rw [update_ne fun heq => hnot (by rw [← heq]; exact hp)]
      exact hid
    · rw [List.mem_singleton.mp hy]
      exact ⟨slot, List.mem_cons_self, Function.update_self _ _ _⟩
  · refine List.pairwise_append.mpr ⟨hpairs, List.pairwise_singleton _ _, fun y hy z hz => ?_⟩
    obtain ⟨p, hp, hid⟩ := hrows y hy
    rw [List.mem_singleton.mp hz, ← hid]
    exact hgave p hp

theorem Recent.put (hhash : ∀ r, hash r < 2 ^ 64) (hslots : slots < 2 ^ 32)
    (hgood : Good hash slots rowBytes s.store k) (h : Recent slots base new s) {row : Nat}
    {bytes : Bytes} (hs : s.step hash (.put row bytes) = some t) :
    Recent slots base (new ++ [⟨row, bytes, s.store.givenUp⟩]) t := by
  obtain ⟨-, -, -, slot, mid, t', htake, ht, rfl, hgood', hfilled⟩ :=
    step_put_some hhash hslots hgood hs
  have hputs : s.puts ++ [⟨row, bytes, s.store.givenUp⟩] =
      base ++ (new ++ [⟨row, bytes, s.store.givenUp⟩]) := by
    rw [h.puts_eq, List.append_assoc]
  have hsl : t'.slots = s.store.slots := hgood'.slots_eq.trans hgood.slots_eq.symm
  have hids : t'.ids = Function.update s.store.ids slot row := by
    rw [hfilled.ids_eq, ht.ids_eq]
  have hu := hgood.slots_eq
  have hle := hgood.used_le
  have hhand := hgood.hand_lt
  by_cases hlen : (new ++ [Put.mk row bytes s.store.givenUp]).length ≤ slots
  · have hlen' : new.length < slots := by
      rw [List.length_append, List.length_singleton] at hlen
      omega
    obtain ⟨news, hnews, hfresh, hrows, hpairs⟩ := h.fresh (by omega)
    by_cases hlt : s.store.used < slots
    · obtain ⟨h1, -, h3⟩ := hgood.take_new hlt
      rw [htake] at h1
      obtain ⟨rfl, rfl⟩ := Prod.mk.inj (Option.some.inj h1)
      have hfresh' := hfresh.put_new (hgood.hand_zero hlt) hfilled hsl
      have hnot : s.store.used ∉ news := fun hmem => Nat.lt_irrefl _ (hfresh.used _ hmem)
      refine Recent.snoc hputs hnews hfresh' hids hnot hrows hpairs fun p _ => ?_
      show s.store.givenUp ≠ _
      rw [h3]
      exact Option.some_ne_none _ ∘ Eq.symm
    · obtain ⟨u, mid', hsweep, h1, -, h3, hrefs, hhand', husedm, -⟩ := hgood.take_old hhash hlt
      rw [htake] at h1
      obtain ⟨rfl, rfl⟩ := Prod.mk.inj (Option.some.inj h1)
      obtain ⟨hsame, hult⟩ := sweep_rows (by omega) hsweep
      have husl : u.slots = s.store.slots := by rw [hsame]
      have huse : u.used = s.store.used := by rw [hsame]
      obtain ⟨⟨hufresh, -⟩, hzero⟩ := sweep_keeps
        (fun v => Fresh v news ∧ v.hand < v.slots ∧ v.used ≤ v.slots)
        (fun v hv hne => ⟨hv.1.turned hv.2.1 hv.2.2 hne, Nat.mod_lt _ (by omega), hv.2.2⟩) _
        ⟨hfresh, by omega, by omega⟩ hsweep
      have hnot := hufresh.sweep_new (m := slots) hzero (by omega) (by omega)
      have hfresh' := hufresh.put_old (by omega) (by omega) hnot hrefs (by omega)
        (by rw [hhand', husl, hu]) hfilled (by rw [hsl, husl]) (by omega)
      refine Recent.snoc hputs hnews hfresh' hids hnot hrows hpairs fun p hp heq => hnot ?_
      rw [← hgood.ids_inj p (hfresh.used p hp) u.hand (by omega)
        (Option.some.inj (heq.symm.trans h3))]
      exact hp
  · exact ⟨hputs, fun hcon => absurd hcon hlen⟩

theorem recent_of_play (hhash : ∀ r, hash r < 2 ^ 64) (hslots : slots < 2 ^ 32)
    (moves : List HotMove) (hinv : s.Inv hash slots rowBytes) (h : Recent slots base new s)
    (hplay : play (hotRows hash slots rowBytes) s moves = some t)
    (htouch : ∀ slot, .touch slot ∉ moves) :
    t.Inv hash slots rowBytes ∧ ∃ new, Recent slots base new t := by
  induction moves generalizing s new with
  | nil =>
    cases Option.some.inj hplay
    exact ⟨hinv, new, h⟩
  | cons m moves ih =>
    obtain ⟨mid, hs, hlater⟩ := Option.bind_eq_some_iff.mp hplay
    have hmid := step_inv hhash hslots hinv hs
    have hrest : ∀ slot, .touch slot ∉ moves :=
      fun slot hm => htouch slot (List.mem_cons_of_mem _ hm)
    obtain ⟨⟨k, hgood⟩, -⟩ := hinv
    cases m with
    | find row =>
      cases Option.some.inj hs
      exact ih hmid h hlater hrest
    | touch slot => exact absurd List.mem_cons_self (htouch slot)
    | put row bytes => exact ih hmid (h.put hhash hslots hgood hs) hlater hrest

/-- In every state the used slots hold distinct rows; find ends, with the slot of a row put and not
given up since and with the bytes of its last put, or with none; the index holds an entry for each
used slot, no others, and an empty place; a put loses at most one row, and only once every slot is
used; and the puts of a run without a touch, no more than the slots, lose none of their own. -/
theorem hot_rows_map (hhash : ∀ r, hash r < 2 ^ 64) (h0 : 1 ≤ slots) (hslots : slots < 2 ^ 32)
    (h : Reach (hotRows hash slots rowBytes) s) :
    (∀ a < s.store.used, ∀ b < s.store.used, s.store.ids a = s.store.ids b → a = b) ∧
    (∀ r, (∃ q < s.store.used, s.store.ids q = r ∧ s.store.find hash r = some (some q) ∧
        kept s.puts r = some (s.store.row q)) ∨
      s.store.find hash r = some none ∧ kept s.puts r = none) ∧
    ((∀ q < s.store.used, ∃! p, p < s.store.index.length ∧
        s.store.index.getD p kEmpty = word q (s.store.ids q)) ∧
      (∀ p < s.store.index.length, s.store.index.getD p kEmpty ≠ kEmpty →
        ∃ q < s.store.used, s.store.index.getD p kEmpty = word q (s.store.ids q)) ∧
      ∃ p < s.store.index.length, s.store.index.getD p kEmpty = kEmpty) ∧
    (∀ row bytes, row < 2 ^ 32 → bytes.length = rowBytes →
      s.store.find hash row = some none → ∃ t, s.step hash (.put row bytes) = some t ∧
        ∀ r, (∃ q, s.store.find hash r = some (some q)) → t.store.find hash r = some none →
          s.store.givenUp = some r ∧ s.store.used = slots) ∧
    ∀ moves t, play (hotRows hash slots rowBytes) s moves = some t →
      (∀ slot, .touch slot ∉ moves) → ∃ new, t.puts = s.puts ++ new ∧ (new.length ≤ slots →
        (new.Pairwise fun p q => q.gaveUp ≠ some p.row) ∧
          ∀ p ∈ new, ∃ q, t.store.find hash p.row = some (some q)) := by
  have hinv := hotRows_inv hhash h0 hslots h
  have hfound : ∀ {u : HotRows}, u.Inv hash slots rowBytes → ∀ r,
      (∃ q < u.store.used, u.store.ids q = r ∧ u.store.find hash r = some (some q) ∧
        kept u.puts r = some (u.store.row q)) ∨
      u.store.find hash r = some none ∧ kept u.puts r = none := by
    intro u hu r
    obtain ⟨⟨k, hgood⟩, hstanding⟩ := hu
    rcases hgood.indexed.find_spec hhash r with ⟨q, hq, hid, hfind⟩ | ⟨hnone, hfind⟩
    · exact .inl ⟨q, hq, hid, hfind, (hstanding r _).mpr ⟨q, hq, hid, rfl⟩⟩
    · refine .inr ⟨hfind, ?_⟩
      cases hk : kept u.puts r with
      | none => rfl
      | some bytes =>
        obtain ⟨q, hq, hid, -⟩ := (hstanding r bytes).mp hk
        exact absurd hid (hnone q hq)
  have hinv' := hinv
  obtain ⟨⟨k, hgood⟩, hstanding⟩ := hinv'
  refine ⟨hgood.ids_inj, hfound hinv, ⟨fun q hq => ?_, fun p hp hne => ?_, ?_⟩,
    fun row bytes hrow hlen hfind => ?_, fun moves t hplay htouch => ?_⟩
  · obtain ⟨h1, -, h3⟩ := hgood.indexed.word_eq hq
    obtain ⟨p, hp, hw⟩ := (hgood.indexed.entries _ h3).mpr ⟨q, hq, rfl⟩
    refine ⟨p, ⟨hp, hw⟩, fun p' hp' => ?_⟩
    obtain ⟨hp', hw'⟩ := hp'
    have hw' : cells s.store.index p' = _ := hw'
    apply hgood.indexed.chained.distinct p' hp' p hp
    · rw [hw']
      exact h3
    · rw [hw]
      exact h3
    · rw [hw, hw']
  · exact (hgood.indexed.entries _ hne).mp ⟨p, hp, rfl⟩
  · exact hgood.indexed.chained.room
  · obtain ⟨slot, mid, htake, ht⟩ := hgood.take hhash
    obtain ⟨t', hstep, hgood', hfilled⟩ := step_put hhash hslots hgood hrow hlen hfind htake ht
    refine ⟨_, hstep, fun r hr hlost => ?_⟩
    have hlost : t'.find hash r = some none := hlost
    obtain ⟨q, hq⟩ := hr
    rcases hgood.indexed.find_spec hhash r with ⟨q', hq', hid, -⟩ | ⟨-, hnone⟩
    · have hgone := not_found hgood' hhash hlost
      have hgave : s.store.givenUp = some r := by
        apply Decidable.byContradiction
        intro hcon
        obtain ⟨hqt, hqs⟩ := (ht.old q').mpr ⟨hq', by rw [hid]; exact hcon⟩
        apply hgone q' (by rw [hfilled.used_eq]; exact hqt)
        rw [hfilled.ids_eq, update_ne hqs, ht.ids_eq, hid]
      refine ⟨hgave, ?_⟩
      have hle := hgood.used_le
      have hsl := hgood.slots_eq
      apply Decidable.byContradiction
      intro hcon
      have hnone := (hgood.take_new (by omega)).2.2
      rw [hgave] at hnone
      simp at hnone
    · rw [hq] at hnone
      simp at hnone
  · have hstart : Recent slots s.puts [] s := by
      refine ⟨(List.append_nil _).symm, fun _ => ⟨[], rfl, ⟨?_, ?_, ?_⟩, ?_, List.Pairwise.nil⟩⟩
        <;> intro p hp <;> exact absurd hp List.not_mem_nil
    obtain ⟨⟨⟨k', hgood'⟩, -⟩, new, hrecent⟩ := recent_of_play hhash hslots moves hinv hstart hplay htouch
    refine ⟨new, hrecent.puts_eq, fun hlen => ?_⟩
    obtain ⟨news, -, hfresh, hrows, hpairs⟩ := hrecent.fresh hlen
    refine ⟨hpairs, fun p hp => ?_⟩
    obtain ⟨q, hq, hid⟩ := hrows p hp
    rcases hgood'.indexed.find_spec hhash p.row with ⟨q', -, -, hfind⟩ | ⟨hnone, -⟩
    · exact ⟨q', hfind⟩
    · exact absurd hid (hnone q (hfresh.used q hq))

theorem product_lt (row : Nat) : product row < 2 ^ 64 := Nat.mod_lt _ (by decide)

/-- One slot: the second row put takes the first one's. -/
def onePlace : List HotMove := [.put 5 [7], .find 5, .put 6 [8]]

theorem hot_rows_map_onePlace :
    ∃ s, play (hotRows product 1 1) ⟨Store.new 1 1, []⟩ onePlace = some s ∧
      s.store.find product 5 = some none ∧ kept s.puts 6 = some [8] ∧
        ∃ q < s.store.used, s.store.find product 6 = some (some q) := by
  have hplay : ∃ s, play (hotRows product 1 1) ⟨Store.new 1 1, []⟩ onePlace = some s ∧
      kept s.puts 5 = none ∧ kept s.puts 6 = some [8] := ⟨_, rfl, rfl, rfl⟩
  obtain ⟨s, hs, h5, h6⟩ := hplay
  have hreach := reach_of_play (m := hotRows product 1 1) onePlace rfl hs
  have hmap := (hot_rows_map product_lt (by decide) (by decide) hreach).2.1
  refine ⟨s, hs, ?_, h6, ?_⟩
  · rcases hmap 5 with ⟨q, -, -, -, hk⟩ | ⟨hfind, -⟩
    · rw [h5] at hk
      simp at hk
    · exact hfind
  · rcases hmap 6 with ⟨q, hq, -, hfind, -⟩ | ⟨-, hk⟩
    · exact ⟨q, hq, hfind⟩
    · rw [h6] at hk
      simp at hk

end WeightRows

end Llmx
