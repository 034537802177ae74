import BalanceAttack.Network.LinkDelay
import BalanceAttack.Proofs.Hindrance
import BalanceAttack.Proofs.Rounding
import BalanceAttack.Proofs.Wiring

/-!
# BalanceAttack.Proofs.LinkDelay

What is drawn for the links of a network.  A float that is drawn between two
floats without a minus sign has none, and neither has the delay between two
cities, so no latency is below zero; and every link gets one in each direction
while all other pairs keep their entries:

* `Draw.plus_of_between`, `Draw.dry_of_between` — a float between two bounds;
* `Weighted.drawLink`, `weighted_of_mapLinks` — what one pair of nodes and what all
  pairs change in a table;
* `weighted_of_drawLatencies`, `dry_of_drawLatencies` — the latencies of links.
-/

namespace BalanceAttack

open BalanceAttack.Random

/-! ## floats between bounds -/

namespace Random

/-- The scale of a draw has no minus sign. -/
theorem plus_fitScale (lo hi : Float) {bits : Nat} (hbits : bits < 2 ^ 63) :
    Plus (fitScale lo hi bits) := by
  induction bits with
  | zero =>
      have hzero : (0 : Float).toModel.unpack = .zero .positive := rfl
      rw [fitScale, Plus, hzero]
      rfl
  | succ bits ih =>
      have hword : (UInt64.ofNat (bits + 1)).toNat < 2 ^ 63 := by
        rw [UInt64.toNat_ofNat', Nat.mod_eq_of_lt (by omega)]
        exact hbits
      unfold fitScale
      dsimp only
      split
      · exact ih (by omega)
      · exact plus_ofBits hword

theorem plus_fractionOfWord (w : UInt64) : Plus (fractionOfWord w) :=
  (plus_toFloat (w >>> 12)).mul (plus_ofBits (by decide))

namespace Draw

variable {σ : Type} [WordSource σ] {supply rest : Supply σ} {lo hi x : Float}

/-- What is drawn between two floats has no minus sign if the lower one and their difference
have none. -/
theorem plus_of_between (hlo : Plus lo) (hspan : Plus (hi - lo))
    (h : between lo hi supply = .ok (x, rest)) : Plus x := by
  unfold between at h
  split at h
  · obtain ⟨w, _, _, h⟩ := bind_eq_ok_iff.1 h
    obtain ⟨rfl, _⟩ := Prod.mk.inj (Except.ok.inj h)
    have hlast : Plus lastFraction := plus_ofBits (by decide)
    exact ((plus_fractionOfWord w).mul (plus_fitScale lo hi (hspan.toBits_div_lt hlast))).add hlo
  · contradiction

theorem dry_of_between {fault : Fault} (hle : lo ≤ hi)
    (h : between lo hi supply = .error fault) : fault = .dry := by
  unfold between at h
  rw [if_pos hle] at h
  rcases bind_eq_error_iff.1 h with h | ⟨_, _, _, h⟩
  · exact dry_of_word h
  · contradiction

end Draw

end Random

/-! ## bounds around a base -/

theorem Whole.toFloat_of_nonneg {t : Int} (ht : 0 ≤ t) :
    toFloat t = (UInt64.ofNat t.natAbs).toFloat := if_neg (Int.not_lt.2 ht)

theorem Whole.ofFloat_nonneg {x : Float} (hx : Plus x) : 0 ≤ ofFloat x := by
  unfold ofFloat
  rw [if_neg (hx.not_lt (by decide +kernel))]
  exact Int.natCast_nonneg _

/-- Two floats without a minus sign, the second of which is no smaller. -/
structure Spread (lo hi : Float) : Prop where
  le : lo ≤ hi
  plus : Plus lo
  span : Plus (hi - lo)

theorem spread_of_ordered {lo hi : Float} (h : Ordered lo.toModel.unpack hi.toModel.unpack) :
    Spread lo hi where
  le := le_of_unpack h.le
  plus := h.unsigned
  span := h.unsigned_sub.unpack_pack

/-- Within a quarter of a base. -/
theorem spread_quarter {base : Int} (hbase : 0 ≤ base) :
    Spread (0.75 * Whole.toFloat base) (1.25 * Whole.toFloat base) := by
  have hlo : Full (0.75 : Float).toModel.unpack 0x18000000000000 (-53) :=
    ⟨by decide, by decide, rfl⟩
  have hhi : Full (1.25 : Float).toModel.unpack 0x14000000000000 (-52) :=
    ⟨by decide, by decide, rfl⟩
  rw [Whole.toFloat_of_nonneg hbase]
  exact spread_of_ordered (ordered_scaled _ hlo hhi (by decide) (by decide) (by norm_num))

/-- Within a fifth of a base. -/
theorem spread_fifth {base : Int} (hbase : 0 ≤ base) :
    Spread (0.8 * Whole.toFloat base) (1.2 * Whole.toFloat base) := by
  have hlo : Full (0.8 : Float).toModel.unpack 0x1999999999999a (-53) :=
    ⟨by decide, by decide, rfl⟩
  have hhi : Full (1.2 : Float).toModel.unpack 0x13333333333333 (-52) :=
    ⟨by decide, by decide, rfl⟩
  rw [Whole.toFloat_of_nonneg hbase]
  exact spread_of_ordered (ordered_scaled _ hlo hhi (by decide) (by decide) (by norm_num))

/-! ## cities -/

namespace City

variable {origin target : Nat} {t : Float}

theorem plus_delay (h : delay origin target = .ok t) : Plus t := by
  unfold delay at h
  obtain ⟨micros, _, h⟩ := Fault.bind_eq_ok_iff.1 h
  obtain ⟨delay, _, h⟩ := Fault.bind_eq_ok_iff.1 h
  obtain rfl := Except.ok.inj h
  have hthousand : Full (1000 : Float).toModel.unpack 0x1f400000000000 (-43) :=
    ⟨by decide, by decide, rfl⟩
  exact (plus_toFloat _).div hthousand.unsigned

/-- There is a delay between any two cities. -/
theorem exists_delay (ho : origin < count) (ht : target < count) :
    ∃ t, delay origin target = .ok t := by
  have hrows : ∀ row ∈ microseconds, row.size = count := by decide +kernel
  have hrow : origin < microseconds.size := ho
  have hmicros : target < microseconds[origin].size := by
    rw [hrows _ (Array.getElem_mem hrow)]
    exact ht
  unfold delay
  rw [Fault.read_of_lt hrow]
  dsimp only [bind, Except.bind]
  rw [Fault.read_of_lt hmicros]
  exact ⟨_, rfl⟩

end City

/-! ## the links of a table -/

namespace Topology

/-- The latencies that a topology gives to a link, there and back. -/
structure Suits (topology : Topology) (there back : Int) : Prop where
  there_nonneg : 0 ≤ there
  back_nonneg : 0 ≤ back
  same : topology = .random → there = back

end Topology

namespace Latencies

variable {σ : Type} {n i j : Nat}

theorem mem_pairs : (i, j) ∈ pairs n ↔ i < j ∧ j < n := by
  simp only [pairs, List.mem_flatMap, List.mem_range, List.mem_map, List.mem_range'_1,
    Prod.mk.injEq]
  constructor
  · rintro ⟨i, hi, j, hj, rfl, rfl⟩
    omega
  · rintro ⟨hij, hj⟩
    exact ⟨i, by omega, j, by omega, rfl, rfl⟩

theorem nodup_pairs (n : Nat) : (pairs n).Nodup := by
  refine List.nodup_flatMap.2 ⟨fun i _ => ?_, ?_⟩
  · exact List.Nodup.map (fun _ _ h => (Prod.mk.inj h).2) List.nodup_range'
  · refine List.nodup_range.imp fun hne => ?_
    intro pair hi hj
    obtain ⟨_, _, rfl⟩ := List.mem_map.1 hi
    obtain ⟨_, _, h⟩ := List.mem_map.1 hj
    exact hne (Prod.mk.inj h).1.symm

theorem put_of_square {m : Latencies} (h : m.Square n) (hi : i < n) (hj : j < n) (t : Int) :
    m.put i j t = .ok (m.set i j t) := by
  rw [put, entry_of_square h hi hj]
  rfl

/-- A table in which pairs of nodes have been drawn latencies if they are linked, and all other
entries are what they were. -/
structure Weighted (links : Latencies) (n : Nat) (topology : Topology) (done : List (Nat × Nat))
    (m : Latencies) : Prop where
  square : m.Square n
  diagonal : ∀ i, m.look i i = links.look i i
  drawn : ∀ i j, i < j → (i, j) ∈ done → reaches (links.look i j) = true →
    topology.Suits (m.look i j) (m.look j i)
  kept : ∀ i j, i < j → (i, j) ∉ done ∨ reaches (links.look i j) = false →
    m.look i j = links.look i j ∧ m.look j i = links.look j i

variable {links m : Latencies} {topology : Topology} {done : List (Nat × Nat)}
  {latencies : Nat → Nat → Draw σ (Int × Int)} {supply rest : Supply σ}

/-- A pair of nodes that is linked gets both its latencies, and any other nothing. -/
theorem cases_of_drawLink (h : m.Square n) (hi : i < n) (hj : j < n) {m' : Latencies}
    (hdraw : drawLink latencies m (i, j) supply = .ok (m', rest)) :
    (reaches (m.look i j) = true ∧ ∃ there back, latencies i j supply = .ok ((there, back), rest) ∧
      m' = (m.set i j there).set j i back) ∨
    (reaches (m.look i j) = false ∧ m' = m) := by
  obtain ⟨t, between, hentry, hbranch⟩ := Draw.bind_eq_ok_iff.1 hdraw
  rw [Draw.lift_eq_ok_iff, entry_of_square h hi hj] at hentry
  obtain ⟨ht, rfl⟩ := hentry
  obtain rfl := Except.ok.inj ht
  split at hbranch
  · next hreach =>
      obtain ⟨⟨there, back⟩, after, hlatencies, hputs⟩ := Draw.bind_eq_ok_iff.1 hbranch
      obtain ⟨d, after', hput, hput'⟩ := Draw.bind_eq_ok_iff.1 hputs
      rw [Draw.lift_eq_ok_iff, put_of_square h hi hj] at hput
      obtain ⟨hd, rfl⟩ := hput
      obtain rfl := Except.ok.inj hd
      rw [Draw.lift_eq_ok_iff, put_of_square (square_set h i j there) hj hi] at hput'
      obtain ⟨hd', rfl⟩ := hput'
      exact .inl ⟨hreach, there, back, hlatencies, (Except.ok.inj hd').symm⟩
  · next hreach =>
      obtain ⟨rfl, _⟩ := Prod.mk.inj (Except.ok.inj hbranch)
      exact .inr ⟨Bool.eq_false_iff.2 hreach, rfl⟩

/-- Drawing the latencies of a link is all that can go wrong. -/
theorem error_of_drawLink (h : m.Square n) (hi : i < n) (hj : j < n) {fault : Fault}
    (hdraw : drawLink latencies m (i, j) supply = .error fault) :
    latencies i j supply = .error fault := by
  rcases Draw.bind_eq_error_iff.1 hdraw with hentry | ⟨t, between, hentry, hbranch⟩
  · rw [Draw.lift_eq_error_iff, entry_of_square h hi hj] at hentry
    contradiction
  · obtain ⟨_, rfl⟩ := Draw.lift_eq_ok_iff.1 hentry
    split at hbranch
    · rcases Draw.bind_eq_error_iff.1 hbranch with hlatencies | ⟨⟨there, back⟩, after, _, hputs⟩
      · exact hlatencies
      · rcases Draw.bind_eq_error_iff.1 hputs with hput | ⟨d, after', hput, hput'⟩
        · rw [Draw.lift_eq_error_iff, put_of_square h hi hj] at hput
          contradiction
        · rw [Draw.lift_eq_ok_iff, put_of_square h hi hj] at hput
          obtain rfl := Except.ok.inj hput.1
          rw [Draw.lift_eq_error_iff, put_of_square (square_set h i j there) hj hi] at hput'
          contradiction
    · contradiction

namespace Weighted

theorem nil (h : links.Square n) : Weighted links n topology [] links where
  square := h
  diagonal := fun _ => rfl
  drawn := fun _ _ _ hmem => (nomatch hmem)
  kept := fun _ _ _ _ => ⟨rfl, rfl⟩

/-- One more pair of nodes is drawn its latencies. -/
theorem drawLink (h : Weighted links n topology done m) (hij : i < j) (hj : j < n)
    (hnew : (i, j) ∉ done)
    (hsuits : ∀ there back, latencies i j supply = .ok ((there, back), rest) →
      topology.Suits there back) {m' : Latencies}
    (hdraw : Latencies.drawLink latencies m (i, j) supply = .ok (m', rest)) :
    Weighted links n topology (done ++ [(i, j)]) m' := by
  have hi : i < n := Nat.lt_trans hij hj
  have hold := h.kept i j hij (.inl hnew)
  have hmem : ∀ a b, ¬ (a = i ∧ b = j) → ((a, b) ∈ done ++ [(i, j)] ↔ (a, b) ∈ done) := by
    intro a b hne
    rw [List.mem_append, List.mem_singleton, Prod.mk.injEq]
    exact or_iff_left hne
  rcases cases_of_drawLink h.square hi hj hdraw with
    ⟨hreach, there, back, hlatencies, rfl⟩ | ⟨hreach, rfl⟩ <;> rw [hold.1] at hreach
  · have hlook : ∀ a b, ((m.set i j there).set j i back).look a b =
        if j = a ∧ i = b then back else if i = a ∧ j = b then there else m.look a b := by
      intro a b
      rw [look_set (square_set h.square i j there) hj hi, look_set h.square hi hj]
    have hother : ∀ a b, a < b → ¬ (a = i ∧ b = j) →
        ((m.set i j there).set j i back).look a b = m.look a b ∧
          ((m.set i j there).set j i back).look b a = m.look b a := by
      intro a b hab hne
      rw [hlook, hlook, if_neg (by omega), if_neg (by omega), if_neg (by omega), if_neg (by omega)]
      exact ⟨rfl, rfl⟩
    refine ⟨square_set (square_set h.square i j there) j i back, fun a => ?_,
      fun a b hab hdone ha => ?_, fun a b hab hcase => ?_⟩
    · rw [hlook, if_neg (by omega), if_neg (by omega), h.diagonal]
    · by_cases hne : a = i ∧ b = j
      · obtain ⟨rfl, rfl⟩ := hne
        rw [hlook, hlook, if_neg (by omega), if_pos ⟨rfl, rfl⟩, if_pos ⟨rfl, rfl⟩]
        exact hsuits there back hlatencies
      · rw [(hother a b hab hne).1, (hother a b hab hne).2]
        exact h.drawn a b hab ((hmem a b hne).1 hdone) ha
    · by_cases hne : a = i ∧ b = j
      · obtain ⟨rfl, rfl⟩ := hne
        simp [hreach] at hcase
      · rw [(hother a b hab hne).1, (hother a b hab hne).2]
        rw [hmem a b hne] at hcase
        exact h.kept a b hab hcase
  · refine ⟨h.square, h.diagonal, fun a b hab hdone ha => ?_, fun a b hab hcase => ?_⟩
    · by_cases hne : a = i ∧ b = j
      · obtain ⟨rfl, rfl⟩ := hne
        rw [hreach] at ha
        contradiction
      · exact h.drawn a b hab ((hmem a b hne).1 hdone) ha
    · by_cases hne : a = i ∧ b = j
      · obtain ⟨rfl, rfl⟩ := hne
        exact hold
      · rw [hmem a b hne] at hcase
        exact h.kept a b hab hcase

/-- Links are neither made nor dropped. -/
theorem linked_iff (h : Weighted links n topology (pairs n) m) (hlinks : links.Undirected n) :
    m.Linked i j ↔ links.Linked i j := by
  have hiff : ∀ a b, a < b → b < n → (reaches (m.look a b) = reaches (links.look a b) ∧
      reaches (m.look b a) = reaches (links.look b a)) := by
    intro a b hab hb
    cases hreach : reaches (links.look a b) with
    | true =>
        have hsuits := h.drawn a b hab (mem_pairs.2 ⟨hab, hb⟩) hreach
        rw [hlinks.symmetric b hb a (Nat.lt_trans hab hb), hreach,
          reaches_iff.2 hsuits.there_nonneg, reaches_iff.2 hsuits.back_nonneg]
        exact ⟨rfl, rfl⟩
    | false =>
        obtain ⟨hthere, hback⟩ := h.kept a b hab (.inr hreach)
        rw [hthere, hback]
        exact ⟨hreach, rfl⟩
  have hinside : ∀ a b, a < n → b < n → (m.Linked a b ↔ links.Linked a b) := by
    intro a b ha hb
    rcases Nat.lt_trichotomy a b with hab | rfl | hab
    · rw [Linked, Linked, (hiff a b hab hb).1]
    · exact ⟨fun h => absurd rfl h.1, fun h => absurd rfl h.1⟩
    · rw [Linked, Linked, (hiff b a hab ha).2]
  constructor
  · intro hij
    obtain ⟨hi, hj⟩ := h.square.lt_of_linked hij
    exact (hinside i j hi hj).1 hij
  · intro hij
    obtain ⟨hi, hj⟩ := hlinks.square.lt_of_linked hij
    exact (hinside i j hi hj).2 hij

/-- Where both directions of a link are given one latency, the table is symmetric. -/
theorem symmetric (h : Weighted links n .random (pairs n) m) (hlinks : links.Undirected n)
    (hi : i < n) (hj : j < n) : m.look i j = m.look j i := by
  have hlt : ∀ a b, a < b → b < n → m.look a b = m.look b a := by
    intro a b hab hb
    cases hreach : reaches (links.look a b) with
    | true => exact (h.drawn a b hab (mem_pairs.2 ⟨hab, hb⟩) hreach).same rfl
    | false =>
        obtain ⟨hthere, hback⟩ := h.kept a b hab (.inr hreach)
        rw [hthere, hback, hlinks.symmetric a (Nat.lt_trans hab hb) b hb]
  rcases Nat.lt_trichotomy i j with hij | rfl | hij
  · exact hlt i j hij hj
  · rfl
  · exact (hlt j i hij hi).symm

end Weighted

/-! ## all links -/

/-- What is drawn for all pairs, if what is drawn for any suits the topology. -/
theorem weighted_of_mapLinks (h : links.Square n)
    (hsuits : ∀ i j, i < n → j < n → ∀ (supply rest : Supply σ) there back,
      latencies i j supply = .ok ((there, back), rest) → topology.Suits there back)
    (hdraw : links.mapLinks latencies supply = .ok (m, rest)) :
    Weighted links n topology (pairs n) m := by
  unfold mapLinks at hdraw
  rw [h.1] at hdraw
  refine Draw.of_foldlM (fun done m => Weighted links n topology done m) ?_ (.nil h) hdraw
  intro done pair todo b supply b' rest hpairs hb hlink
  obtain ⟨i, j⟩ := pair
  obtain ⟨hij, hj⟩ : i < j ∧ j < n := mem_pairs.1 (hpairs ▸ by simp)
  have hnew : (i, j) ∉ done := by
    have hnodup := nodup_pairs n
    rw [hpairs, List.nodup_append] at hnodup
    exact fun hmem => hnodup.2.2 _ hmem _ List.mem_cons_self rfl
  exact hb.drawLink hij hj hnew (hsuits i j (Nat.lt_trans hij hj) hj supply rest) hlink

/-- Drawing latencies has no fault that drawing those of a link has not. -/
theorem error_of_mapLinks (h : links.Square n) {fault : Fault}
    (hdraw : links.mapLinks latencies supply = .error fault) :
    ∃ i j, i < n ∧ j < n ∧ ∃ supply : Supply σ, latencies i j supply = .error fault := by
  unfold mapLinks at hdraw
  rw [h.1] at hdraw
  obtain ⟨done, ⟨i, j⟩, todo, m, between, hpairs, hdone, hlink⟩ :=
    Draw.exists_of_foldlM_error hdraw
  have hmem : ∀ pair ∈ done ++ [(i, j)], pair ∈ pairs n := by
    intro pair hpair
    rw [hpairs, List.append_cons]
    exact List.mem_append_left _ hpair
  have hsq : m.Square n := by
    refine Draw.of_foldlM (fun _ m => Square m n) ?_ h hdone
    intro before (a, b) after m supply m' rest hsplit hm hlink
    obtain ⟨hab, hb⟩ := mem_pairs.1 (hmem (a, b) (by simp [hsplit]))
    rcases cases_of_drawLink hm (Nat.lt_trans hab hb) hb hlink with
      ⟨_, there, back, _, rfl⟩ | ⟨_, rfl⟩
    · exact square_set (square_set hm a b there) b a back
    · exact hm
  obtain ⟨hij, hj⟩ := mem_pairs.1 (hmem (i, j) (by simp))
  exact ⟨i, j, Nat.lt_trans hij hj, hj, between,
    error_of_drawLink hsq (Nat.lt_trans hij hj) hj hlink⟩

variable [WordSource σ] {base : Int}

/-- Latencies around a base suit both directions of a link. -/
theorem weighted_of_drawAround (h : links.Square n) (hbase : 0 ≤ base)
    (hdraw : links.drawAround base supply = .ok (m, rest)) :
    Weighted links n .random (pairs n) m := by
  refine weighted_of_mapLinks h (fun i j _ _ supply rest there back hlatencies => ?_) hdraw
  obtain ⟨x, between, hx, hlatencies⟩ := Draw.bind_eq_ok_iff.1 hlatencies
  obtain ⟨hpair, _⟩ := Prod.mk.inj (Except.ok.inj hlatencies)
  obtain ⟨rfl, rfl⟩ := Prod.mk.inj hpair
  have hspread := spread_quarter hbase
  have hpos := Whole.ofFloat_nonneg (Draw.plus_of_between hspread.plus hspread.span hx)
  exact ⟨hpos, hpos, fun _ => rfl⟩

theorem dry_of_drawAround (h : links.Square n) (hbase : 0 ≤ base) {fault : Fault}
    (hdraw : links.drawAround base supply = .error fault) : fault = .dry := by
  obtain ⟨i, j, _, _, between, hlatencies⟩ := error_of_mapLinks h hdraw
  rcases Draw.bind_eq_error_iff.1 hlatencies with hx | ⟨_, _, _, hreturn⟩
  · exact Draw.dry_of_between (spread_quarter hbase).le hx
  · contradiction

/-- Every node is placed in some city. -/
theorem placed {city : Array Nat}
    (h : (Array.range n).mapM (fun _ => Draw.index City.count) supply = .ok (city, rest)) :
    city.size = n ∧ ∀ c ∈ city, c < City.count := by
  rw [Array.mapM_eq_foldlM, ← Array.foldlM_toList, Array.toList_range] at h
  have hplaced := Draw.of_foldlM
    (fun done (city : Array Nat) => city.size = done.length ∧ ∀ c ∈ city, c < City.count)
    (fun done i todo city supply city' rest _ hcity hpush => ?_) ⟨rfl, by simp⟩ h
  · simpa using hplaced
  · rw [← bind_pure_comp] at hpush
    obtain ⟨c, between, hc, hpush⟩ := Draw.bind_eq_ok_iff.1 hpush
    obtain ⟨rfl, _⟩ := Prod.mk.inj (Except.ok.inj hpush)
    refine ⟨by simp [hcity.1], fun c' hc' => ?_⟩
    rcases Array.mem_push.1 hc' with hc' | rfl
    · exact hcity.2 c' hc'
    · exact Draw.index_lt hc

theorem dry_of_place {fault : Fault}
    (h : (Array.range n).mapM (fun _ => Draw.index City.count) supply = .error fault) :
    fault = .dry := by
  rw [Array.mapM_eq_foldlM, ← Array.foldlM_toList] at h
  obtain ⟨_, _, _, _, _, _, _, hpush⟩ := Draw.exists_of_foldlM_error h
  rw [← bind_pure_comp] at hpush
  rcases Draw.bind_eq_error_iff.1 hpush with hc | ⟨_, _, _, hpush⟩
  · exact Draw.dry_of_index (by decide) hc
  · contradiction

theorem weighted_of_drawByCity (h : links.Square n) (hbase : 0 ≤ base)
    (hdraw : links.drawByCity base supply = .ok (m, rest)) :
    Weighted links n .cities (pairs n) m := by
  obtain ⟨city, between, _, hdraw⟩ := Draw.bind_eq_ok_iff.1 hdraw
  refine weighted_of_mapLinks h (fun i j _ _ supply rest there back hlatencies => ?_) hdraw
  obtain ⟨x, _, hx, hlatencies⟩ := Draw.bind_eq_ok_iff.1 hlatencies
  obtain ⟨a, _, _, hlatencies⟩ := Draw.bind_eq_ok_iff.1 hlatencies
  obtain ⟨b, _, _, hlatencies⟩ := Draw.bind_eq_ok_iff.1 hlatencies
  obtain ⟨t, _, ht, hlatencies⟩ := Draw.bind_eq_ok_iff.1 hlatencies
  obtain ⟨t', _, ht', hlatencies⟩ := Draw.bind_eq_ok_iff.1 hlatencies
  obtain ⟨hpair, _⟩ := Prod.mk.inj (Except.ok.inj hlatencies)
  obtain ⟨rfl, rfl⟩ := Prod.mk.inj hpair
  have hspread := spread_fifth hbase
  have hqueueing := Draw.plus_of_between hspread.plus hspread.span hx
  have hthere := City.plus_delay (Draw.lift_eq_ok_iff.1 ht).1
  have hback := City.plus_delay (Draw.lift_eq_ok_iff.1 ht').1
  exact ⟨Whole.ofFloat_nonneg (hthere.add hqueueing), Whole.ofFloat_nonneg (hback.add hqueueing),
    fun h => by contradiction⟩

theorem dry_of_drawByCity (h : links.Square n) (hbase : 0 ≤ base) {fault : Fault}
    (hdraw : links.drawByCity base supply = .error fault) : fault = .dry := by
  rcases Draw.bind_eq_error_iff.1 hdraw with hcity | ⟨city, between, hcity, hdraw⟩
  · exact dry_of_place hcity
  · obtain ⟨hsize, hcities⟩ := placed hcity
    rw [h.1] at hsize
    obtain ⟨i, j, hi, hj, between', hlatencies⟩ := error_of_mapLinks h hdraw
    have hread : ∀ k, k < n → ∃ c, Fault.read city k = .ok c ∧ c < City.count := by
      intro k hk
      have hk' : k < city.size := by omega
      exact ⟨city[k], Fault.read_of_lt hk', hcities _ (Array.getElem_mem hk')⟩
    obtain ⟨a, ha, ha'⟩ := hread i hi
    obtain ⟨b, hb, hb'⟩ := hread j hj
    obtain ⟨t, ht⟩ := City.exists_delay ha' hb'
    obtain ⟨t', ht'⟩ := City.exists_delay hb' ha'
    rcases Draw.bind_eq_error_iff.1 hlatencies with hx | ⟨x, _, _, hlatencies⟩
    · exact Draw.dry_of_between (spread_fifth hbase).le hx
    · simp only [ha, hb, ht, ht', Draw.lift_ok_bind] at hlatencies
      contradiction

/-- Every link is given latencies that suit the topology, and nothing else is changed. -/
theorem weighted_of_drawLatencies (h : links.Square n) (hbase : 0 ≤ base)
    (hdraw : links.drawLatencies topology base supply = .ok (m, rest)) :
    Weighted links n topology (pairs n) m := by
  cases topology with
  | random => exact weighted_of_drawAround h hbase hdraw
  | cities => exact weighted_of_drawByCity h hbase hdraw

/-- Latencies are drawn unless the words run out. -/
theorem dry_of_drawLatencies (h : links.Square n) (hbase : 0 ≤ base) {fault : Fault}
    (hdraw : links.drawLatencies topology base supply = .error fault) : fault = .dry := by
  cases topology with
  | random => exact dry_of_drawAround h hbase hdraw
  | cities => exact dry_of_drawByCity h hbase hdraw

end Latencies

end BalanceAttack
