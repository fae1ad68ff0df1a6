import Sparkey.Index.Collisions
import Sparkey.MurmurHash3

/-!
# Tables of short keys

With the hash functions of the library and 4 bytes for a hash value, keys of one length of up to
four bytes never collide.  Whatever calls have made a table of such keys, each has a hash value of
its own there (`nodup_hashes_of_reached`).
-/

namespace Sparkey

open Program BlockStream

/-- **Short keys do not collide**: in a table of keys of one length of up to four bytes no hash value
comes twice. -/
theorem nodup_hashes_of_reached [Compressors] : letI := murmurHashes
    ∀ {log : Logreader} {items : List (Item Entry)} {s : Hashing} {n : Nat}, log.Holds items →
      Reached log items s → s.hashHeader.hashSize = 4 → n ≤ 4 →
      (∀ key address, s.Stores items key address → key.length = n) →
      (s.hashHeader.hashes s.hashtable).Nodup := by
  let := murmurHashes
  intro log items s n hl h hsize hn hlength
  obtain ⟨ha, live, hi⟩ := h.indexed hl
  have hlen : ∀ it ∈ live, it.val.key.length = n := fun it hit =>
    hlength _ _ ((hi.stores_iff hl ha).mpr ⟨it, hit, rfl, rfl⟩)
  rw [hi.hashes_perm.nodup_iff]
  refine List.Nodup.map_on ?_ (List.Nodup.of_map _ hi.distinct)
  intro it hit it' hit' hhash
  have hkey : it.val.key = it'.val.key := by
    refine murmurhash_four_injective ((hlen it hit).trans (hlen it' hit').symm)
      ((hlen it hit).trans_le hn) (?_ : murmurhash 4 _ s.hashHeader.hashSeed = _)
    rw [← hsize]
    exact hhash
  exact hi.distinct.eq_of_key hit hit' hkey

/-- The keys `[1]` and `[5]` in a table with 4 bytes for a hash value. -/
theorem nodup_hashes_of_reached_sample :
    letI := literalCompressors
    letI := murmurHashes
    ∃ log items s, Reached log items s ∧ (∃ address, s.Stores items [1] address) ∧
      (∃ address, s.Stores items [5] address) ∧ (s.hashHeader.hashes s.hashtable).length = 2 ∧
      (s.hashHeader.hashes s.hashtable).Nodup := by
  let := literalCompressors
  let := murmurHashes
  obtain ⟨log, a, b, rest, s, hl, hkeya, hkeyb, hs, -, hsize, ha, hi⟩ := exists_pairTable
  have hlength : ∀ key address, s.Stores (a :: b :: rest) key address → key.length = 1 := by
    intro key address h
    obtain ⟨it, hit, rfl, -⟩ := (hi.stores_iff hl.toHolds ha).mp h
    rcases List.mem_pair.mp hit with rfl | rfl
    · rw [hkeyb]
      rfl
    · rw [hkeya]
      rfl
  have hstores : ∀ it ∈ [b, a], ∃ address, s.Stores (a :: b :: rest) it.val.key address :=
    fun it hit => ⟨s.hashHeader.addressOf it, (hi.stores_iff hl.toHolds ha).mpr ⟨it, hit, rfl, rfl⟩⟩
  exact ⟨log, a :: b :: rest, s, hs, hkeya ▸ hstores a (List.mem_cons_of_mem _ List.mem_cons_self),
    hkeyb ▸ hstores b List.mem_cons_self, hi.hashes_perm.length_eq,
    nodup_hashes_of_reached hl.toHolds hs hsize (show 1 ≤ 4 by decide) hlength⟩

end Sparkey
