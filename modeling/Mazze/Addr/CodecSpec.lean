import Mazze.Addr.Codec

/-!
# A network has more than one accepted prefix

`Network::to_prefix` writes a network id in decimal, and `Network::from_prefix` reads it back
(`Network.fromPrefix_toPrefix`). But `from_prefix` reads the id with `u64::from_str`, which also
takes leading zeros (and a leading `+`): `net0…` names the same network as `net…`
(`Network.fromPrefix_zero_padded`), and `to_prefix` never writes it. Since the checksum is
taken over the prefix as written, an address whose prefix is spelled so, with its own checksum,
decodes to the same network and bytes as the canonical one, yet encoding those gives the other
string (`mazzeAddrDecode_accepts_second_spelling`).
-/

set_option autoImplicit false

namespace Mazze.Addr

/-! ## Decimal digits -/

theorem digitChar_sub_zero : ∀ d, d < 10 → (Nat.digitChar d).toNat - '0'.toNat = d := by
  decide

theorem isDigit_digitChar : ∀ d, d < 10 → (Nat.digitChar d).isDigit = true := by
  decide

/-- Reading the digits `Nat.toDigitsCore` puts in front of `ds` gives their number, read on into
    `ds`. The induction is on the fuel, which stays above the number left to write. -/
theorem foldl_toDigitsCore (fuel n : Nat) (ds : List Char) (hn : n < fuel) :
    (Nat.toDigitsCore 10 fuel n ds).foldl decimalStep 0 = ds.foldl decimalStep n := by
  induction fuel generalizing n ds with
  | zero => omega
  | succ fuel ih =>
    have hd := digitChar_sub_zero (n % 10) (Nat.mod_lt n (by decide))
    rw [Nat.toDigitsCore]
    split_ifs with h0
    · -- the last digit: `n` is below ten
      rw [List.foldl_cons, decimalStep, hd]
      congr 1
      omega
    · rw [ih (n / 10) _ (by omega), List.foldl_cons, decimalStep, hd]
      congr 1
      omega

theorem isDigit_of_mem_toDigitsCore (fuel n : Nat) (ds : List Char) {c : Char}
    (hc : c ∈ Nat.toDigitsCore 10 fuel n ds) : c.isDigit = true ∨ c ∈ ds := by
  induction fuel generalizing n ds with
  | zero => exact .inr hc
  | succ fuel ih =>
    have hd := isDigit_digitChar (n % 10) (Nat.mod_lt n (by decide))
    rw [Nat.toDigitsCore] at hc
    split_ifs at hc with h0
    · rcases List.mem_cons.mp hc with rfl | hc
      · exact .inl hd
      · exact .inr hc
    · rcases ih (n / 10) _ hc with h | h
      · exact .inl h
      · rcases List.mem_cons.mp h with rfl | h
        · exact .inl hd
        · exact .inr h

theorem toDigitsCore_ne_nil (fuel n : Nat) {ds : List Char} (hds : ds ≠ []) :
    Nat.toDigitsCore 10 fuel n ds ≠ [] := by
  induction fuel generalizing n ds with
  | zero => exact hds
  | succ fuel ih =>
    rw [Nat.toDigitsCore]
    split_ifs
    · exact List.cons_ne_nil _ _
    · exact ih (n / 10) (List.cons_ne_nil _ _)

theorem toDigits_ne_nil (n : Nat) : Nat.toDigits 10 n ≠ [] := by
  rw [Nat.toDigits, Nat.toDigitsCore]
  split_ifs
  · exact List.cons_ne_nil _ _
  · exact toDigitsCore_ne_nil n (n / 10) (List.cons_ne_nil _ _)

theorem all_isDigit_toDigits (n : Nat) : (Nat.toDigits 10 n).all Char.isDigit = true :=
  List.all_eq_true.mpr fun _ hc =>
    (isDigit_of_mem_toDigitsCore _ n [] hc).resolve_right (List.not_mem_nil)

/-! ## `u64::from_str` -/

/-- Digits with no sign are read as they stand, below `2^64`. -/
theorem parseU64_digits {ds : List Char} (hne : ds ≠ []) (hd : ds.all Char.isDigit = true) :
    parseU64 ds =
      if ds.foldl decimalStep 0 < 2 ^ 64 then some (ds.foldl decimalStep 0) else none := by
  obtain ⟨c, cs, rfl⟩ := List.exists_cons_of_ne_nil hne
  have hc : c.isDigit = true := List.all_eq_true.mp hd c List.mem_cons_self
  -- a digit is no sign
  have hplus : c ≠ '+' := by
    rintro rfl
    exact absurd hc (by decide)
  have hminus : c ≠ '-' := by
    rintro rfl
    exact absurd hc (by decide)
  unfold parseU64
  dsimp only
  split
  · simp_all
  · simp_all
  · simp_all
  · rw [Option.bind_some, if_pos ⟨hne, hd⟩]

theorem parseU64_toDigits {n : Nat} (hn : n < 2 ^ 64) : parseU64 (Nat.toDigits 10 n) = some n := by
  have hval : (Nat.toDigits 10 n).foldl decimalStep 0 = n :=
    (foldl_toDigitsCore (n + 1) n [] (Nat.lt_succ_self n)).trans List.foldl_nil
  rw [parseU64_digits (toDigits_ne_nil n) (all_isDigit_toDigits n), hval, if_pos hn]

/-- A leading zero changes nothing. -/
theorem parseU64_zero_cons {ds : List Char} (hne : ds ≠ []) (hd : ds.all Char.isDigit = true) :
    parseU64 ('0' :: ds) = parseU64 ds := by
  have hd' : ('0' :: ds).all Char.isDigit = true := by simpa using hd
  have hval : ('0' :: ds).foldl decimalStep 0 = ds.foldl decimalStep 0 := by
    rw [List.foldl_cons]
    rfl
  rw [parseU64_digits (List.cons_ne_nil _ _) hd', parseU64_digits hne hd, hval]

/-! ## Network prefixes -/

theorem networkIdPrefix_ne_main (ds : List Char) : networkIdPrefix ++ ds ≠ mainnetPrefix := by
  simp [networkIdPrefix, mainnetPrefix]

theorem networkIdPrefix_ne_test (ds : List Char) : networkIdPrefix ++ ds ≠ testnetPrefix := by
  simp [networkIdPrefix, testnetPrefix]

/-- A `net` prefix names the network whose id its rest reads as. -/
theorem Network.fromPrefix_net {ds : List Char} {n : Nat} (hp : parseU64 ds = some n)
    (hr : n ∉ reservedNetworkIds) : Network.fromPrefix (networkIdPrefix ++ ds) = .ok (.id n) := by
  have hpfx : networkIdPrefix.isPrefixOf (networkIdPrefix ++ ds) = true := by
    simp [networkIdPrefix]
  unfold Network.fromPrefix
  rw [if_neg (networkIdPrefix_ne_main ds), if_neg (networkIdPrefix_ne_test ds)]
  simp only [hpfx, Bool.not_true, Bool.false_eq_true, if_false, List.drop_left, hp, if_neg hr]

/-- `from_prefix` reads back the prefix `to_prefix` writes for a network id. -/
theorem Network.fromPrefix_toPrefix {n : Nat} (hn : n < 2 ^ 64) (hr : n ∉ reservedNetworkIds) :
    (Network.id n).toPrefix = .ok (networkIdPrefix ++ Nat.toDigits 10 n) ∧
      Network.fromPrefix (networkIdPrefix ++ Nat.toDigits 10 n) = .ok (.id n) :=
  ⟨if_neg hr, Network.fromPrefix_net (parseU64_toDigits hn) hr⟩

/-- `from_prefix` reads the id with a leading zero as the same network, a spelling `to_prefix`
    never writes. -/
theorem Network.fromPrefix_zero_padded {n : Nat} (hn : n < 2 ^ 64) (hr : n ∉ reservedNetworkIds) :
    Network.fromPrefix (networkIdPrefix ++ '0' :: Nat.toDigits 10 n) = .ok (.id n) ∧
      (Network.id n).toPrefix ≠ .ok (networkIdPrefix ++ '0' :: Nat.toDigits 10 n) := by
  refine ⟨Network.fromPrefix_net ?_ hr, ?_⟩
  · rw [parseU64_zero_cons (toDigits_ne_nil n) (all_isDigit_toDigits n), parseU64_toDigits hn]
  · -- the written prefix is one character shorter
    rw [(Network.fromPrefix_toPrefix hn hr).1]
    intro h
    have hlen := congrArg List.length (Except.ok.inj h)
    simp at hlen

/-! ## Two accepted spellings of one address -/

theorem mazzeAddrDecode_accepts_second_spelling :
    mazzeAddrDecode "net010:aajaaaaaaaaaaaaaaaaaaaaaaaaaaaaaaawnxpru3u".toList =
      some (.ok ⟨"net010:aajaaaaaaaaaaaaaaaaaaaaaaaaaaaaaaawnxpru3u".toList,
        0x10 :: List.replicate 19 0, some (0x10 :: List.replicate 19 0), .id 10⟩) ∧
    mazzeAddrEncode (0x10 :: List.replicate 19 0) (.id 10) .simple =
      some (.ok "net10:aajaaaaaaaaaaaaaaaaaaaaaaaaaaaaaaaf77p6dmh".toList) :=
  ⟨by decide +kernel, by decide +kernel⟩

end Mazze.Addr
