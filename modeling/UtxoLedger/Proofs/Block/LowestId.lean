/-
UtxoLedger.Proofs.Block.LowestId — the search for a low id finds the lowest one.

Trial `i` stands for a header: the one at hand with the nonce `i` after its own
(`Header.atTrial`). The search never builds that header. It exchanges 32 bytes in the bytes
of the first one, and `withNonceBytes_encode` says that these are the bytes of the other.

The loop keeps one trial. `IsFirstLowest ids count i` says which: among the first `count`
numbers the one at `i` is lowest, and those before it are higher. One more number keeps the
trial or replaces it (`IsFirstLowest.next`), and `improve_trial` repeats that step.

There is one such position (`IsFirstLowest.eq`). So trials that are made side by side lead to
the same result, in whatever way they are compared (`searchSideBySide_eq`): the best of some
trials wins against all of them, and the best of all is the first lowest.
-/
import UtxoLedger.Block.Search
import UtxoLedger.Proofs.Codec.Reads

namespace UtxoLedger

/-- Position `i` is the first at which the lowest of the first `count` numbers stands. -/
structure IsFirstLowest (ids : Nat → Nat) (count i : Nat) : Prop where
  lt : i < count
  lowest : ∀ j < count, ids i ≤ ids j
  first : ∀ j < i, ids i < ids j

namespace IsFirstLowest

variable {ids : Nat → Nat} {count i : Nat}

theorem one (ids : Nat → Nat) : IsFirstLowest ids 1 0 where
  lt := Nat.one_pos
  lowest j hj := by
    obtain rfl : j = 0 := by omega
    exact Nat.le_refl _
  first j hj := absurd hj (Nat.not_lt_zero j)

/-- One more number takes the place only if it is lower. -/
theorem next (h : IsFirstLowest ids count i) :
    IsFirstLowest ids (count + 1) (if ids count < ids i then count else i) := by
  split
  · rename_i hlower
    have hbefore : ∀ j < count, ids count < ids j := fun j hj =>
      Nat.lt_of_lt_of_le hlower (h.lowest j hj)
    refine ⟨Nat.lt_succ_self _, fun j hj => ?_, hbefore⟩
    rcases Nat.lt_succ_iff_lt_or_eq.mp hj with hj | rfl
    · exact Nat.le_of_lt (hbefore j hj)
    · exact Nat.le_refl _
  · rename_i hhigher
    refine ⟨Nat.lt_succ_of_lt h.lt, fun j hj => ?_, h.first⟩
    rcases Nat.lt_succ_iff_lt_or_eq.mp hj with hj | rfl
    · exact h.lowest j hj
    · exact Nat.not_lt.mp hhigher

/-- There is only one such position. -/
theorem eq {j : Nat} (hi : IsFirstLowest ids count i) (hj : IsFirstLowest ids count j) :
    i = j := by
  rcases Nat.lt_trichotomy i j with hlt | heq | hgt
  · exact absurd (hi.lowest j hj.lt) (Nat.not_le.mpr (hj.first i hlt))
  · exact heq
  · exact absurd (hj.lowest i hi.lt) (Nat.not_le.mpr (hi.first j hgt))

end IsFirstLowest

namespace Header

/-! ## The header of a trial -/

/-- The header with the nonce `i` after its own. -/
def atTrial (h : Header) (i : Nat) : Header := h.withNonce (Nonce.add h.nonce (UInt64.ofNat i))

theorem length_encodeFront (h : Header) : h.encodeFront.length = nonceOffset := by
  simp [encodeFront, encodeUInt32, encodeUInt64, Fixed.length_toList, nonceOffset]

/-- The nonce's bytes stand where they are exchanged, and all others stay. -/
theorem withNonceBytes_encode (h : Header) (nonce : Digest) :
    withNonceBytes h.encode nonce = (h.withNonce nonce).encode := by
  have hfront : h.encode.take nonceOffset = h.encodeFront :=
    List.take_left' h.length_encodeFront
  have hback : h.encode.drop (nonceOffset + 32) = h.encodeBack := by
    have hlength : (h.encodeFront ++ h.nonce.toList).length = nonceOffset + 32 := by
      rw [List.length_append, h.length_encodeFront, h.nonce.length_toList]
    rw [encode, ← List.append_assoc]
    exact List.drop_left' hlength
  rw [withNonceBytes, hfront, hback]
  rfl

theorem trial_encode (h : Header) (i : Nat) :
    SearchResult.trial h.nonce h.encode i = ((h.atTrial i).nonce, (h.atTrial i).id) := by
  rw [SearchResult.trial, withNonceBytes_encode]
  rfl

/-! ## The loop -/

/-- The ids of the trials, as numbers. -/
def trialIds (h : Header) (i : Nat) : Nat := (h.atTrial i).id.toNat

/-- The loop from trial `count` on, entered with the best of the trials before it. -/
theorem improve_trial (h : Header) (more : Nat) : ∀ {count i : Nat},
    IsFirstLowest h.trialIds count i →
      ∃ best, IsFirstLowest h.trialIds (count + more) best ∧
        SearchResult.improve h.nonce h.encode more count
          (SearchResult.trial h.nonce h.encode i) = SearchResult.trial h.nonce h.encode best := by
  induction more with
  | zero =>
    intro count i hlowest
    exact ⟨i, hlowest, rfl⟩
  | succ more ih =>
    intro count i hlowest
    obtain ⟨best, hbest, himprove⟩ := ih hlowest.next
    rw [Nat.add_right_comm] at hbest
    refine ⟨best, hbest, ?_⟩
    rw [← himprove, SearchResult.improve, apply_ite (SearchResult.trial h.nonce h.encode)]
    simp only [trial_encode, trialIds, ← Fixed.compare_toNat, Nat.compare_eq_lt]

theorem toNat_trials (h : Header) (n : UInt64) : (h.search n).trials.toNat = max n.toNat 1 := by
  have hn : n = 0 ↔ n.toNat = 0 := by rw [← UInt64.toNat_inj]; rfl
  simp only [search, hn]
  split
  · rename_i hzero
    simp [hzero]
  · omega

/-- What the search finds is one of its trials, the first of those with the lowest id. -/
theorem exists_search_eq (h : Header) (n : UInt64) : ∃ best,
    IsFirstLowest h.trialIds (max n.toNat 1) best ∧
      (h.search n).nonce = (h.atTrial best).nonce ∧ (h.search n).id = (h.atTrial best).id := by
  obtain ⟨best, hbest, himprove⟩ :=
    h.improve_trial (max n.toNat 1 - 1) (IsFirstLowest.one h.trialIds)
  rw [Nat.add_sub_cancel' (Nat.le_max_right _ _)] at hbest
  rw [← toNat_trials h n, trial_encode h best] at himprove
  refine ⟨best, hbest, ?_, ?_⟩
  · exact congrArg Prod.fst himprove
  · exact congrArg Prod.snd himprove

theorem atTrial_eq_withNonce (h : Header) (i : Nat) :
    h.atTrial i = h.withNonce (h.atTrial i).nonce := rfl

/-- **The search finds the lowest id.** It makes as many trials as it is asked for, and at
least one. The nonce that it finds is the one of the first trial that has the lowest id, and
its id is the one of the whole header with that nonce; no trial has a lower one, be the ids
compared as numbers or byte by byte. The short forms give the same id and the same nonce,
and more trials never find a higher id. -/
theorem search_finds_lowest (h : Header) (n : UInt64) :
    (h.search n).trials.toNat = max n.toNat 1 ∧
      (∃ best, IsFirstLowest h.trialIds (max n.toNat 1) best ∧
        (h.search n).nonce = Nonce.add h.nonce (UInt64.ofNat best)) ∧
      (h.search n).id = (h.withNonce (h.search n).nonce).id ∧
      (∀ i < max n.toNat 1, (compare (h.search n).id (h.atTrial i).id).isLE = true) ∧
      h.lowestId n = (h.search n).id ∧ h.lowestNonce n = (h.search n).nonce ∧
      ∀ more : UInt64, n ≤ more → (h.search more).id.toNat ≤ (h.search n).id.toNat := by
  obtain ⟨best, hbest, hnonce, hid⟩ := h.exists_search_eq n
  refine ⟨h.toNat_trials n, ⟨best, hbest, hnonce⟩, ?_, fun i hi => ?_, rfl, rfl, ?_⟩
  · rw [hnonce, hid, ← atTrial_eq_withNonce]
  · rw [hid, ← Fixed.compare_toNat, Nat.isLE_compare]
    exact hbest.lowest i hi
  · intro more hmore
    obtain ⟨lower, hlower, -, hid'⟩ := h.exists_search_eq more
    have hcount : max n.toNat 1 ≤ max more.toNat 1 := by
      rw [UInt64.le_iff_toNat_le] at hmore
      omega
    rw [hid, hid']
    exact hlower.lowest best (Nat.lt_of_lt_of_le hbest.lt hcount)

/-! ### A search across the largest nonce

Of the first four trials, which begin at the largest nonce, the third is best: its nonce is
one. Of the first two it is the first. -/

namespace SearchSample

def header : Header := ⟨1, .zero, .zero, 0, 0, .zero, .replicate 32 0xff, 0, .zero, 0, .zero⟩

end SearchSample

open SearchSample in
theorem search_finds_lowest_sample :
    (2 : UInt64) ≤ 4 ∧ (header.search 2).nonce = header.nonce ∧
      (header.search 4).nonce = .ofNat 32 1 ∧
      (header.search 4).id.toNat ≤ (header.search 2).id.toNat := by
  have hmore : (2 : UInt64) ≤ 4 := by decide
  obtain ⟨-, -, -, -, -, -, hlower⟩ := search_finds_lowest header 2
  exact ⟨hmore, by decide +kernel, by decide +kernel, hlower 4 hmore⟩

/-! ## Trials side by side -/

/-- Trial `i` wins against trial `j`: its id is lower, or the same and it is earlier. -/
def Beats (ids : Nat → Nat) (i j : Nat) : Prop := ids i < ids j ∨ ids i = ids j ∧ i ≤ j

/-- A game leaves one of its two trials, and that one wins against the other. -/
theorem winner_game (h : Header) {left right : Tournament} {i j : Nat}
    (hleft : left.winner h.nonce h.encode = (i, SearchResult.trial h.nonce h.encode i))
    (hright : right.winner h.nonce h.encode = (j, SearchResult.trial h.nonce h.encode j)) :
    ∃ k, (k = i ∨ k = j) ∧ Beats h.trialIds k i ∧ Beats h.trialIds k j ∧
      (Tournament.game left right).winner h.nonce h.encode =
        (k, SearchResult.trial h.nonce h.encode k) := by
  rw [Tournament.winner, hleft, hright]
  simp only [trial_encode, ← Fixed.compare_toNat]
  unfold Beats trialIds
  split
  · rename_i hlower
    have hlower := Nat.compare_eq_lt.mp hlower
    exact ⟨i, .inl rfl, by omega, by omega, rfl⟩
  · rename_i hhigher
    have hhigher := Nat.compare_eq_gt.mp hhigher
    exact ⟨j, .inr rfl, by omega, by omega, rfl⟩
  · rename_i hsame
    have hsame := Nat.compare_eq_eq.mp hsame
    split
    · exact ⟨i, .inl rfl, by omega, by omega, rfl⟩
    · exact ⟨j, .inr rfl, by omega, by omega, rfl⟩

/-- What is left at the end is one of the trials, and it wins against each of them. -/
theorem exists_winner_eq (h : Header) (trials : Tournament) :
    ∃ best ∈ trials.entries, (∀ i ∈ trials.entries, Beats h.trialIds best i) ∧
      trials.winner h.nonce h.encode = (best, SearchResult.trial h.nonce h.encode best) := by
  induction trials with
  | entry i =>
    refine ⟨i, List.mem_singleton_self i, fun j hj => ?_, rfl⟩
    obtain rfl := List.mem_singleton.mp hj
    exact .inr ⟨rfl, Nat.le_refl _⟩
  | game left right ihleft ihright =>
    obtain ⟨i, hi, hbeatsLeft, hleft⟩ := ihleft
    obtain ⟨j, hj, hbeatsRight, hright⟩ := ihright
    obtain ⟨k, hk, hki, hkj, hwinner⟩ := h.winner_game hleft hright
    refine ⟨k, ?_, fun l hl => ?_, hwinner⟩
    · rcases hk with rfl | rfl
      · exact List.mem_append_left _ hi
      · exact List.mem_append_right _ hj
    · unfold Beats at *
      rcases List.mem_append.mp hl with hl | hl
      · have := hbeatsLeft l hl
        omega
      · have := hbeatsRight l hl
        omega

/-- **Side by side or one after another, the search has the same result,** as long as each
trial takes part and no others do. How often two results are compared, and which two, does
not matter. -/
theorem searchSideBySide_eq (h : Header) (n : UInt64) {trials : Tournament}
    (htrials : ∀ i, i ∈ trials.entries ↔ i < max n.toNat 1) :
    h.searchSideBySide n trials = h.search n := by
  obtain ⟨first, hfirst, hnonce, hid⟩ := h.exists_search_eq n
  obtain ⟨best, hbest, hbeats, hwinner⟩ := h.exists_winner_eq trials
  have hlowest : IsFirstLowest h.trialIds (max n.toNat 1) best := by
    refine ⟨(htrials best).mp hbest, fun j hj => ?_, fun j hj => ?_⟩
    · rcases hbeats j ((htrials j).mpr hj) with hlower | ⟨hsame, -⟩
      · exact Nat.le_of_lt hlower
      · exact Nat.le_of_eq hsame
    · have hcount := (htrials best).mp hbest
      rcases hbeats j ((htrials j).mpr (Nat.lt_trans hj hcount)) with hlower | ⟨-, hle⟩
      · exact hlower
      · exact absurd hj (Nat.not_lt.mpr hle)
  obtain rfl := hlowest.eq hfirst
  rw [searchSideBySide, hwinner, trial_encode, ← hnonce, ← hid]
  rfl

end Header

end UtxoLedger
