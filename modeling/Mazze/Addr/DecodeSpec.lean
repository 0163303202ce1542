import Mazze.Addr.CodecSpec

/-!
# Payloads too short for a version byte

`mazze_addr_decode` checks the checksum first and only then cuts the eight checksum digits off
the payload (`&payload_5_bits[..(len_5_bit - 8)]`) and reads the version byte (`payload[0]`).
Neither step is guarded by a length check: a payload of one to seven digits whose checksum
verifies makes the `usize` subtraction go below zero, and one of exactly eight digits converts to
no bytes at all, so `payload[0]` indexes an empty vector. Both are panics, where the decoder
should answer `InvalidLength`.

Every string that passes the checks before the checksum (a prefix `Network::from_prefix`
accepts, a colon, digits of `CHARSET`) is already in lower case and splits into exactly those
two parts (`Network.fromPrefix_chars`, `charset_getElem`), so the walk through the decoder up to
the checksum is the same for all of them; `mazzeAddrDecode_short_payload_panics` follows it to
the panic. The eight checksum digits of an empty body under the main-net prefix are one such
payload (`mazzeAddrDecode_checksum_only_panics`).
-/

set_option autoImplicit false

namespace Mazze.Addr

/-! ## Characters of a prefix and of the digits -/

theorem toLower_of_isUpper_false {c : Char} (h : c.isUpper = false) : c.toLower = c := by
  unfold Char.toLower
  rw [dif_neg (of_decide_eq_false h)]

theorem map_toLower_of_isUpper_false {l : List Char} (h : ∀ c ∈ l, c.isUpper = false) :
    l.map Char.toLower = l :=
  (List.map_congr_left fun c hc => toLower_of_isUpper_false (h c hc)).trans (List.map_id l)

theorem isUpper_of_isDigit {c : Char} (h : c.isDigit = true) : c.isUpper = false ∧ c ≠ ':' := by
  refine ⟨?_, ?_⟩
  · simp only [Char.isDigit, Char.isUpper, Bool.and_eq_true, decide_eq_true_eq,
      UInt32.le_iff_toNat_le, decide_eq_false_iff_not] at h ⊢
    -- digits are codes 48 to 57, capitals 65 to 90
    have h9 : '9'.val.toNat = 57 := rfl
    have hA : 'A'.val.toNat = 65 := rfl
    omega
  · rintro rfl
    simp at h

/-- What `u64::from_str` accepts is an optional `+` and decimal digits. -/
theorem parseU64_chars {s : List Char} {n : Nat} (h : parseU64 s = some n) :
    ∀ c ∈ s, c = '+' ∨ c.isDigit = true := by
  unfold parseU64 at h
  dsimp only at h
  split at h
  · simp at h
  · simp at h
  · intro c hc
    rw [Option.bind_some] at h
    split_ifs at h with hd
    rcases List.mem_cons.mp hc with rfl | hc
    · exact .inl rfl
    · exact .inr (List.all_eq_true.mp hd.2 c hc)
  · intro c hc
    rw [Option.bind_some] at h
    split_ifs at h with hd
    exact .inr (List.all_eq_true.mp hd.2 c hc)

theorem any_isUpper_eq_false {l : List Char} (h : ∀ c ∈ l, c.isUpper = false) :
    l.any Char.isUpper = false :=
  List.any_eq_false.mpr fun c hc => by simp [h c hc]

/-- The characters of a fixed text, checked one by one. -/
theorem chars_of_all {l : List Char} (h : l.all (fun c => !c.isUpper && c != ':') = true) :
    ∀ c ∈ l, c.isUpper = false ∧ c ≠ ':' := fun c hc => by
  simpa using List.all_eq_true.mp h c hc

/-- A prefix `from_prefix` accepts has no capital and no colon. -/
theorem Network.fromPrefix_chars {pfx : List Char} {network : Network}
    (h : Network.fromPrefix pfx = .ok network) : ∀ c ∈ pfx, c.isUpper = false ∧ c ≠ ':' := by
  unfold Network.fromPrefix at h
  split_ifs at h with hm ht hnet
  · subst hm
    exact chars_of_all rfl
  · subst ht
    exact chars_of_all rfl
  · -- a network id: `net` and the digits `u64::from_str` read
    obtain ⟨rest, rfl⟩ : networkIdPrefix <+: pfx := by simpa using hnet
    rw [List.drop_left] at h
    rcases hp : parseU64 rest with _ | n
    · simp [hp] at h
    intro c hc
    rcases List.mem_append.mp hc with hc | hc
    · exact chars_of_all rfl c hc
    · rcases parseU64_chars hp c hc with rfl | hd
      · decide
      · exact isUpper_of_isDigit hd

/-- The digits of `CHARSET` are lower case or decimal, and `CHAR_INDEX` reads each back. -/
theorem charset_getElem : ∀ d, d < 32 → (charset[d]!).isUpper = false ∧ charset[d]! ≠ ':' ∧
    charIndex charset[d]! = some d.toUInt8 := by
  decide +kernel

theorem payloadDigits_map_charset {ds : List UInt8} (hds : ∀ d ∈ ds, d < 32) :
    payloadDigits (ds.map fun d => charset[d.toNat]!) = .ok ds := by
  induction ds with
  | nil => rfl
  | cons d ds ih =>
    have hd : d.toNat < 32 := UInt8.lt_iff_toNat_lt.mp (hds d List.mem_cons_self)
    have hback : d.toNat.toUInt8 = d := UInt8.ofNat_toNat
    rw [List.map_cons, payloadDigits, (charset_getElem d.toNat hd).2.2, hback,
      ih fun d' hd' => hds d' (List.mem_cons_of_mem d hd')]
    rfl

theorem splitOn_colon {pfx cs : List Char} (hpfx : ':' ∉ pfx) (hcs : ':' ∉ cs) :
    (pfx ++ ':' :: cs).splitOn ':' = [pfx, cs] := by
  have h := @List.splitOn_intercalate _ [pfx, cs] _ _ ':' (by simp [hpfx, hcs]) (by simp)
  simpa [List.intercalate] using h

/-! ## The decoder on a short payload -/

theorem convertBits_nil : convertBits [] 5 8 false = some (.ok []) := by decide

theorem mazzeAddrDecode_short_payload_panics {pfx : List Char} {network : Network}
    (hnet : Network.fromPrefix pfx = .ok network) {ds : List UInt8} (hds : ∀ d ∈ ds, d < 32)
    (hne : ds ≠ []) (hlen : ds.length ≤ 8) (hsum : polymod (expandPrefix pfx ++ ds) = 0) :
    mazzeAddrDecode (pfx ++ ':' :: ds.map fun d => charset[d.toNat]!) = none := by
  generalize hcs' : (ds.map fun d => charset[d.toNat]!) = cs
  have hcs : ∀ c ∈ cs, c.isUpper = false ∧ c ≠ ':' := by
    intro c hc
    rw [← hcs'] at hc
    obtain ⟨d, hd, rfl⟩ := List.mem_map.mp hc
    have h := charset_getElem d.toNat (UInt8.lt_iff_toNat_lt.mp (hds d hd))
    exact ⟨h.1, h.2.1⟩
  have hpfx := Network.fromPrefix_chars hnet
  -- the whole string is already lower case, and its only colon is the one after the prefix
  have hall : ∀ c ∈ pfx ++ ':' :: cs, c.isUpper = false := by
    intro c hc
    rcases List.mem_append.mp hc with hc | hc
    · exact (hpfx c hc).1
    · rcases List.mem_cons.mp hc with rfl | hc
      · decide
      · exact (hcs c hc).1
  have hupper := any_isUpper_eq_false hall
  have hcsupper := any_isUpper_eq_false fun c hc => (hcs c hc).1
  have hsplit : (pfx ++ ':' :: cs).splitOn ':' = [pfx, cs] :=
    splitOn_colon (fun h => (hpfx ':' h).2 rfl) (fun h => (hcs ':' h).2 rfl)
  have hdigits : payloadDigits cs = .ok ds := hcs' ▸ payloadDigits_map_charset hds
  have hcslen : cs.length ≠ 0 := by
    rw [← hcs', List.length_map]
    exact Nat.pos_iff_ne_zero.mp (List.length_pos_iff.mpr hne)
  unfold mazzeAddrDecode
  simp only [hupper, Bool.and_false, map_toLower_of_isUpper_false hall, hsplit]
  simp only [Bool.false_eq_true, ↓reduceIte, List.length_cons, List.length_nil, Nat.reduceAdd,
    Nat.lt_irrefl, List.getElem!_cons_zero, List.getElem!_cons_succ, hnet, Nat.sub_self,
    List.drop_succ_cons, List.drop_zero, List.take_zero, parseOptions, Nat.add_one_sub_one,
    hcslen, hcsupper, Bool.and_false, hdigits, hsum, bne_self_eq_false]
  -- fewer than eight digits panic at the slice, eight at `payload[0]`
  split_ifs with hshort
  · rfl
  · rw [show ds.length - 8 = 0 by omega, List.take_zero, convertBits_nil]

/-- The checksum of an empty body under `mazze`, alone as the payload: `mazze:7rd2mtrs`. -/
theorem mazzeAddrDecode_checksum_only_panics :
    polymod (expandPrefix mainnetPrefix ++ [29, 13, 3, 24, 10, 15, 13, 14]) = 0 ∧
      mazzeAddrDecode (mainnetPrefix ++ ':' ::
        ([29, 13, 3, 24, 10, 15, 13, 14] : List UInt8).map fun d => charset[d.toNat]!) = none := by
  have hsum : polymod (expandPrefix mainnetPrefix ++ [29, 13, 3, 24, 10, 15, 13, 14]) = 0 := by
    decide +kernel
  have hnet : Network.fromPrefix mainnetPrefix = .ok .main := by decide +kernel
  have hall : ([29, 13, 3, 24, 10, 15, 13, 14] : List UInt8).all (fun d => decide (d < 32)) = true :=
    rfl
  have hds : ∀ d ∈ ([29, 13, 3, 24, 10, 15, 13, 14] : List UInt8), d < 32 := fun d hd =>
    of_decide_eq_true (List.all_eq_true.mp hall d hd)
  exact ⟨hsum, mazzeAddrDecode_short_payload_panics hnet hds (by simp) (by simp) hsum⟩

example : mainnetPrefix ++ ':' :: ([29, 13, 3, 24, 10, 15, 13, 14] : List UInt8).map
    (fun d => charset[d.toNat]!) = "mazze:7rd2mtrs".toList := by
  decide +kernel

end Mazze.Addr
