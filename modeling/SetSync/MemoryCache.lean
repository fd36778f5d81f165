import SetSync.Bits

/-!
# The cache of the in-memory storages

The `IN_MEMORY` branch of `Set::Set` gives each of its two `MemStorage` objects one half of the
configured cache, as gigabytes and a rest.  `GIGABYTE` is `1024 * 1024 * 1024` without parentheses:
behind `/` and `%` only its first factor is divided by.

    x / GIGABYTE  =  x / 1024 * 2 ^ 20                                        (divGigabyte)
    x % GIGABYTE  =  x % 1024 * 2 ^ 20                                        (modGigabyte)

Both stand in branches for more than a gigabyte of rest.  Neither branch ever leaves a pair of the
right value, so the halves are right exactly where no branch is taken:

    half = total / 2  ↔  no `/ GIGABYTE` and no `% GIGABYTE` is reached       (halves_cache_iff)
-/

namespace SetSync

/-- The fields of a `SET_CONFIG` that the cache depends on. -/
structure SetConfig where
  bf_max_elements : UInt64
  storage_cache_gbytes : UInt64
  storage_cache_bytes : UInt64
deriving DecidableEq

/-- `Configuration::StorageConfig` -/
structure StorageConfig where
  cacheSizeGiven : Bool
  cacheInBytes : UInt64
  cacheInGBytes : UInt64
deriving DecidableEq

/-- `getStorage()` of `Configuration(SET_CONFIG)`. -/
def SetConfig.getStorage (config : SetConfig) : StorageConfig where
  cacheSizeGiven := !(config.storage_cache_bytes == 0 && config.storage_cache_gbytes == 0)
  cacheInBytes := config.storage_cache_bytes
  cacheInGBytes := config.storage_cache_gbytes

/-- A cache size in two parts, as `set_cachesize` takes it. -/
structure CacheSize where
  gbytes : UInt64
  bytes : UInt64
deriving DecidableEq

namespace CacheSize

/-- The number of bytes. -/
def total (c : CacheSize) : Nat := c.gbytes.toNat * 2 ^ 30 + c.bytes.toNat

end CacheSize

/-! ## The constructor -/

/-- `x / GIGABYTE` -/
def divGigabyte (x : UInt64) : UInt64 := x / 1024 * 1024 * 1024

/-- `x % GIGABYTE` -/
def modGigabyte (x : UInt64) : UInt64 := x % 1024 * 1024 * 1024

/-- `gbsize` and `size` of the constructor, before they are halved. -/
def SetConfig.cacheSize (config : SetConfig) (hashSize : UInt64) : CacheSize :=
  let size := config.getStorage.cacheInBytes
  let gbsize := config.getStorage.cacheInGBytes
  if !config.getStorage.cacheSizeGiven then
    let size := config.bf_max_elements * hashSize * 40 + 1024 * 1024
    if size > 1024 * 1024 * 1024 then ⟨divGigabyte size, modGigabyte size⟩
    else ⟨gbsize, size⟩
  else ⟨gbsize, size⟩

/-- `halfgbcache` and `halfcache` of the constructor. -/
def CacheSize.half (c : CacheSize) : CacheSize :=
  let halfcache := c.bytes / 2
  let halfgbcache := c.gbytes / 2
  if c.gbytes % 2 == 1 then
    let remainder := 1024 * 1024 * 1024 / 2
    let halfcache := halfcache + remainder
    if halfcache > 1024 * 1024 * 1024 then
      ⟨halfgbcache + divGigabyte halfcache, modGigabyte halfcache⟩
    else ⟨halfgbcache, halfcache⟩
  else ⟨halfgbcache, halfcache⟩

/-- What the constructor passes to the `MemStorage` of the trie and to that of the bloom filter. -/
def SetConfig.memStorageCache (config : SetConfig) (hashSize : UInt64) : CacheSize :=
  (config.cacheSize hashSize).half

/-- The cache in bytes that the configuration stands for. -/
def SetConfig.totalCache (config : SetConfig) (hashSize : UInt64) : Nat :=
  if config.getStorage.cacheSizeGiven then
    config.storage_cache_gbytes.toNat * 2 ^ 30 + config.storage_cache_bytes.toNat
  else config.bf_max_elements.toNat * hashSize.toNat * 40 + 2 ^ 20

/-! ## The macro -/

theorem toNat_divGigabyte (x : UInt64) :
    (divGigabyte x).toNat = x.toNat / 2 ^ 10 % 2 ^ 44 * 2 ^ 20 := by
  have hx := x.toNat_lt
  simp only [divGigabyte, UInt64.toNat_mul, UInt64.toNat_div, UInt64.reduceToNat]
  omega

theorem toNat_modGigabyte (x : UInt64) : (modGigabyte x).toNat = x.toNat % 2 ^ 10 * 2 ^ 20 := by
  have hx := x.toNat_lt
  simp only [modGigabyte, UInt64.toNat_mul, UInt64.toNat_mod, UInt64.reduceToNat]
  omega

/-- `2 ^ 40 - 1` and `2 ^ 44` have no common factor. -/
theorem no_common_value {a b r e : Nat} (hb : b < 2 ^ 44) (hr : r < 2 ^ 10)
    (h : b * 2 ^ 50 + r * 2 ^ 20 = (a * 2 ^ 44 + b) * 2 ^ 10 + r + 2 ^ 94 * e) :
    a = 0 ∧ b = 0 ∧ r = 0 := by
  have hrest : r = 0 := by omega
  subst hrest
  obtain ⟨k, rfl⟩ : ∃ k, b = 2 ^ 40 * k := ⟨b / 2 ^ 40, by omega⟩
  omega

/-- The pair that should be the gigabytes and the rest of `x` has another value, also where the
gigabytes it is added to overflow (`e`). -/
theorem gigabytes_lost {x : UInt64} (hx : 2 ^ 30 < x.toNat) (e : Nat) :
    (divGigabyte x).toNat * 2 ^ 30 + (modGigabyte x).toNat ≠ x.toNat + 2 ^ 94 * e := by
  rw [toNat_divGigabyte, toNat_modGigabyte]
  intro h
  have hparts : x.toNat = (x.toNat / 2 ^ 10 / 2 ^ 44 * 2 ^ 44 + x.toNat / 2 ^ 10 % 2 ^ 44) * 2 ^ 10
      + x.toNat % 2 ^ 10 := by
    rw [Nat.div_add_mod', Nat.div_add_mod']
  obtain ⟨ha, hb, hr⟩ := no_common_value (a := x.toNat / 2 ^ 10 / 2 ^ 44) (e := e)
    (Nat.mod_lt (x.toNat / 2 ^ 10) (by decide)) (Nat.mod_lt x.toNat (by decide))
    (by rw [← hparts, ← h, Nat.mul_assoc, ← Nat.pow_add])
  rw [ha, hb, hr] at hparts
  clear h
  omega

/-! ## The halves -/

namespace CacheSize

theorem odd_iff {c : CacheSize} : (c.gbytes % 2 == 1) = true ↔ c.gbytes.toNat % 2 = 1 := by
  rw [beq_iff_eq, ← UInt64.toNat_inj, UInt64.toNat_mod]
  rfl

theorem half_of_even {c : CacheSize} (h : c.gbytes.toNat % 2 = 0) :
    c.half = ⟨c.gbytes / 2, c.bytes / 2⟩ := by
  have hcond : ¬ (c.gbytes % 2 == 1) = true := by
    rw [odd_iff]
    omega
  rw [half, if_neg hcond]

/-- The rest of half a size with odd gigabytes: half a gigabyte more. -/
theorem toNat_carry (x : UInt64) : (x / 2 + 1024 * 1024 * 1024 / 2).toNat = x.toNat / 2 + 2 ^ 29 := by
  have hx := x.toNat_lt
  have hhalf : (1024 * 1024 * 1024 / 2 : UInt64).toNat = 2 ^ 29 := by decide
  rw [UInt64.toNat_add, hhalf, UInt64.toNat_div, show (2 : UInt64).toNat = 2 from rfl]
  omega

/-- Half the gigabytes of an odd size leave half a gigabyte to the rest. -/
theorem total_div_two {c : CacheSize} (h : c.gbytes.toNat % 2 = 1) :
    c.total / 2 = c.gbytes.toNat / 2 * 2 ^ 30 + (c.bytes.toNat / 2 + 2 ^ 29) := by
  unfold total
  omega

theorem half_of_odd {c : CacheSize} (h : c.gbytes.toNat % 2 = 1) {x : UInt64}
    (hx : c.bytes / 2 + 1024 * 1024 * 1024 / 2 = x) :
    c.half = if x > 1024 * 1024 * 1024 then ⟨c.gbytes / 2 + divGigabyte x, modGigabyte x⟩
      else ⟨c.gbytes / 2, x⟩ := by
  subst hx
  rw [half, if_pos (odd_iff.mpr h)]

/-- An overflow of the gigabytes loses `2 ^ 64` of them. -/
theorem overflow_lost {k g m x : Nat} (h : (k + g) % 2 ^ 64 * 2 ^ 30 + m = k * 2 ^ 30 + x) :
    g * 2 ^ 30 + m = x + 2 ^ 94 * ((k + g) / 2 ^ 64) := by
  have hover := Nat.mod_add_div (k + g) (2 ^ 64)
  generalize (k + g) % 2 ^ 64 = q at h hover
  generalize (k + g) / 2 ^ 64 = e at hover ⊢
  have hwide : (q + 2 ^ 64 * e) * 2 ^ 30 = q * 2 ^ 30 + 2 ^ 94 * e := by
    rw [Nat.add_mul, Nat.mul_right_comm, ← Nat.pow_add]
  rw [hover, Nat.add_mul] at hwide
  generalize 2 ^ 94 * e = lost at hwide ⊢
  generalize 2 ^ 30 = gigabyte at h hwide ⊢
  omega

/-- The half is right as long as its rest is not normalised. -/
theorem total_half_iff (c : CacheSize) :
    c.half.total = c.total / 2 ↔ c.gbytes.toNat % 2 = 0 ∨ c.bytes.toNat ≤ 2 ^ 30 + 1 := by
  have htwo : (2 : UInt64).toNat = 2 := rfl
  rcases Nat.mod_two_eq_zero_or_one c.gbytes.toNat with heven | hodd
  · rw [half_of_even heven, iff_true_right (Or.inl heven)]
    simp only [total, UInt64.toNat_div, htwo]
    omega
  · have hcarry := toNat_carry c.bytes
    generalize hhalf : c.bytes / 2 + 1024 * 1024 * 1024 / 2 = x at hcarry
    have hcond : x > 1024 * 1024 * 1024 ↔ 2 ^ 30 < x.toNat := UInt64.lt_iff_toNat_lt
    rw [half_of_odd hodd hhalf, total_div_two hodd, ← hcarry]
    by_cases hx : 2 ^ 30 < x.toNat
    · have hlarge : ¬ (c.gbytes.toNat % 2 = 0 ∨ c.bytes.toNat ≤ 2 ^ 30 + 1) := by omega
      rw [if_pos (hcond.mpr hx), iff_false_right hlarge]
      simp only [total, UInt64.toNat_add, UInt64.toNat_div, htwo]
      exact fun h => gigabytes_lost hx _ (overflow_lost h)
    · have hsmall : c.bytes.toNat ≤ 2 ^ 30 + 1 := by omega
      rw [if_neg (mt hcond.mp hx), iff_true_right (Or.inr hsmall)]
      simp only [total, UInt64.toNat_div, htwo]

/-- The pair that the macro makes is even, and halved exactly. -/
theorem total_half_macro (x : UInt64) :
    2 * (⟨divGigabyte x, modGigabyte x⟩ : CacheSize).half.total
      = (divGigabyte x).toNat * 2 ^ 30 + (modGigabyte x).toNat := by
  have hdiv := toNat_divGigabyte x
  have hmod := toNat_modGigabyte x
  have htwo : (2 : UInt64).toNat = 2 := rfl
  have heven : (divGigabyte x).toNat % 2 = 0 := by omega
  rw [half_of_even heven]
  simp only [total, UInt64.toNat_div, htwo]
  omega

end CacheSize

/-! ## The constructor halves the cache -/

namespace SetConfig

variable {config : SetConfig} {hashSize : UInt64}

theorem cacheSize_of_given (h : config.getStorage.cacheSizeGiven = true) :
    config.cacheSize hashSize = ⟨config.storage_cache_gbytes, config.storage_cache_bytes⟩ := by
  rw [cacheSize, h]
  rfl

theorem gbytes_of_not_given (h : config.getStorage.cacheSizeGiven = false) :
    config.storage_cache_gbytes = 0 := by
  have hnot : (config.storage_cache_bytes == 0 && config.storage_cache_gbytes == 0) = true := by
    simpa [getStorage] using h
  rw [Bool.and_eq_true, beq_iff_eq, beq_iff_eq] at hnot
  exact hnot.2

/-- `size` of the constructor when no cache size is given: a multiple of 8. -/
theorem toNat_size (maxElements hashSize : UInt64) :
    (maxElements * hashSize * 40 + 1024 * 1024).toNat
      = (maxElements.toNat * hashSize.toNat * 40 + 2 ^ 20) % 2 ^ 64 := by
  have hmega : (1024 * 1024 : UInt64).toNat = 2 ^ 20 := by decide
  have hforty : (40 : UInt64).toNat = 40 := rfl
  rw [UInt64.toNat_add, UInt64.toNat_mul, UInt64.toNat_mul, hmega, hforty]
  generalize maxElements.toNat * hashSize.toNat = p
  omega

theorem cacheSize_of_small (h : config.getStorage.cacheSizeGiven = false)
    (hsmall : ¬ 2 ^ 30 < (config.bf_max_elements * hashSize * 40 + 1024 * 1024).toNat) :
    config.cacheSize hashSize = ⟨0, config.bf_max_elements * hashSize * 40 + 1024 * 1024⟩ := by
  have hcond : ¬ config.bf_max_elements * hashSize * 40 + 1024 * 1024 > 1024 * 1024 * 1024 :=
    fun hc => hsmall (UInt64.lt_iff_toNat_lt.mp hc)
  have hzero : config.getStorage.cacheInGBytes = 0 := gbytes_of_not_given h
  rw [cacheSize, h, if_pos (show (!false) = true from rfl), if_neg hcond, hzero]

theorem cacheSize_of_large (h : config.getStorage.cacheSizeGiven = false)
    (hlarge : 2 ^ 30 < (config.bf_max_elements * hashSize * 40 + 1024 * 1024).toNat) :
    config.cacheSize hashSize
      = ⟨divGigabyte (config.bf_max_elements * hashSize * 40 + 1024 * 1024),
          modGigabyte (config.bf_max_elements * hashSize * 40 + 1024 * 1024)⟩ := by
  have hcond : config.bf_max_elements * hashSize * 40 + 1024 * 1024 > 1024 * 1024 * 1024 :=
    UInt64.lt_iff_toNat_lt.mpr hlarge
  rw [cacheSize, h, if_pos (show (!false) = true from rfl), if_pos hcond]

/-- Without a given size, the halves are those of the total as long as it is at most a gigabyte. -/
theorem halves_default_iff (h : config.getStorage.cacheSizeGiven = false)
    (hproduct : config.bf_max_elements.toNat * hashSize.toNat * 40 ≤ 2 ^ 64 - 1) :
    ((config.memStorageCache hashSize).total
        = (config.bf_max_elements.toNat * hashSize.toNat * 40 + 2 ^ 20) / 2 ∧
      (config.memStorageCache hashSize).bytes.toNat < 2 ^ 30) ↔
    config.bf_max_elements.toNat * hashSize.toNat * 40 + 2 ^ 20 ≤ 2 ^ 30 := by
  have hsize := toNat_size config.bf_max_elements hashSize
  unfold memStorageCache
  by_cases hx : 2 ^ 30 < (config.bf_max_elements * hashSize * 40 + 1024 * 1024).toNat
  · rw [cacheSize_of_large h hx]
    generalize config.bf_max_elements * hashSize * 40 + 1024 * 1024 = x at hsize hx ⊢
    generalize config.bf_max_elements.toNat * hashSize.toNat = p at hproduct hsize ⊢
    -- a sum that overflows leaves less than a megabyte
    have htotal : p * 40 + 2 ^ 20 < 2 ^ 64 := by
      by_contra hover
      have hwrapped : x.toNat = p * 40 + 2 ^ 20 - 2 ^ 64 := by omega
      omega
    rw [Nat.mod_eq_of_lt htotal] at hsize
    have hlarge : ¬ p * 40 + 2 ^ 20 ≤ 2 ^ 30 := by omega
    rw [iff_false_right hlarge]
    rintro ⟨hhalf, -⟩
    have hdouble := CacheSize.total_half_macro x
    have hlost := gigabytes_lost hx 0
    rw [Nat.mul_zero, Nat.add_zero] at hlost
    -- the size is even, so its half determines it
    have hexact : 2 * ((p * 40 + 2 ^ 20) / 2) = x.toNat := by omega
    rw [hhalf, hexact] at hdouble
    exact hlost hdouble.symm
  · rw [cacheSize_of_small h hx, CacheSize.half_of_even (show (0 : UInt64).toNat % 2 = 0 by decide)]
    generalize config.bf_max_elements * hashSize * 40 + 1024 * 1024 = x at hsize hx ⊢
    generalize config.bf_max_elements.toNat * hashSize.toNat = p at hproduct hsize ⊢
    have htwo : (2 : UInt64).toNat = 2 := rfl
    have hgbytes : (0 / 2 : UInt64).toNat = 0 := by decide
    simp only [CacheSize.total, UInt64.toNat_div x 2, htwo, hgbytes]
    omega

/-- The two `MemStorage` objects share the cache that the configuration stands for. -/
theorem halves_cache_iff (config : SetConfig) (hashSize : UInt64)
    (hproduct : config.getStorage.cacheSizeGiven = false →
      config.bf_max_elements.toNat * hashSize.toNat * 40 ≤ 2 ^ 64 - 1) :
    ((config.memStorageCache hashSize).total = config.totalCache hashSize / 2 ∧
      (config.getStorage.cacheSizeGiven = false →
        (config.memStorageCache hashSize).bytes.toNat < 2 ^ 30)) ↔
    if config.getStorage.cacheSizeGiven then
      config.storage_cache_gbytes.toNat % 2 = 0 ∨ config.storage_cache_bytes.toNat ≤ 2 ^ 30 + 1
    else config.bf_max_elements.toNat * hashSize.toNat * 40 + 2 ^ 20 ≤ 2 ^ 30 := by
  cases hgiven : config.getStorage.cacheSizeGiven with
  | true =>
    have hiff := CacheSize.total_half_iff ⟨config.storage_cache_gbytes, config.storage_cache_bytes⟩
    simpa [memStorageCache, cacheSize_of_given hgiven, totalCache, hgiven, CacheSize.total] using hiff
  | false =>
    have hiff := halves_default_iff hgiven (hproduct hgiven)
    simpa [totalCache, hgiven] using hiff

theorem halves_cache_sample :
    let config : SetConfig := ⟨1000000, 0, 0⟩
    (config.memStorageCache 20).total = config.totalCache 20 / 2 ∧
      config.totalCache 20 = 801048576 := by
  have h := (halves_cache_iff ⟨1000000, 0, 0⟩ 20 (fun _ => by decide)).mpr (by decide)
  exact ⟨h.1, by decide⟩

/-- Two million keys under SHA-1: instead of 800524288 bytes, each storage is to get 819736870912
gigabytes. -/
theorem two_million_keys :
    let config : SetConfig := ⟨2000000, 0, 0⟩
    config.bf_max_elements.toNat * 20 * 40 ≤ 2 ^ 64 - 1 ∧
      config.totalCache 20 / 2 = 800524288 ∧
      (config.memStorageCache 20).total ≠ config.totalCache 20 / 2 := by
  decide

end SetConfig

end SetSync
