import Mathlib.Data.List.GetD
import Xv6.Lib.Slots
import Xv6.Fs.Icache
import Xv6.Laws.Fs.Content

/-!
# Directories are finite maps

A directory is a row of slots (`Vol.dirSlots`): an entry is free when its number is 0, and else has
a name, as `strncpy` puts names into the field, and a number. Two names are equal for `namecmp`
exactly when `strncpy` makes the same field of them, so `dirlookup` is the search of the slots, and
writing an entry through `writei` writes a slot, in the middle of the file or at its end.

A directory whose size is no multiple of 16 makes both loops panic at its end. What is said here
holds for it as well, of the calls that return.
-/

namespace Xv6

open Function Xv6.Lib

variable {p q name : List Byte} {n k inum : Nat}

/-! ## Names -/

/-- `strncmp` compares what `strncpy` would copy. -/
theorem strncmp_iff : ∀ n k, strncmp p q n k = true ↔ strncpy p n k = strncpy q n k := by
  intro n
  induction n with
  | zero =>
    intro k
    exact ⟨fun _ => rfl, fun _ => rfl⟩
  | succ n ih =>
    intro k
    unfold strncmp strncpy
    by_cases heq : p.getD k 0 = q.getD k 0
    · rw [if_neg (not_not.mpr heq), ← heq]
      by_cases h0 : p.getD k 0 = 0
      · rw [if_pos h0, if_pos h0, if_pos h0]
        exact ⟨fun _ => rfl, fun _ => rfl⟩
      · rw [if_neg h0, if_neg h0, if_neg h0, ih (k + 1), List.cons_inj_right]
    · rw [if_pos heq]
      refine ⟨nofun, fun hcopy => absurd ?_ heq⟩
      rw [List.replicate_succ] at hcopy
      split at hcopy
      next hp =>
        split at hcopy
        next hq => rw [hp, hq]
        next => exact hp.trans (List.cons.inj hcopy).1
      next =>
        split at hcopy
        next hq => rw [(List.cons.inj hcopy).1, hq]
        next => exact (List.cons.inj hcopy).1

/-- The name as a field of `DIRSIZ` bytes. -/
def nameField (name : List Byte) : List Byte := strncpy name DIRSIZ 0

theorem namecmp_iff : namecmp p q = true ↔ nameField p = nameField q := strncmp_iff DIRSIZ 0

theorem nameField_ne (h : namecmp p q = false) : nameField p ≠ nameField q := by
  intro heq
  rw [namecmp_iff.mpr heq] at h
  cases h

theorem length_strncpy : ∀ n k, (strncpy name n k).length = n := by
  intro n
  induction n with
  | zero =>
    intro k
    rfl
  | succ n ih =>
    intro k
    unfold strncpy
    split
    · rw [List.length_replicate]
    · rw [List.length_cons, ih]

/-- A copy is copied as it is, wherever it stands. -/
theorem strncpy_append : ∀ n k (pre : List Byte),
    strncpy (pre ++ strncpy name n k) n pre.length = strncpy name n k := by
  intro n
  induction n with
  | zero =>
    intro k pre
    rfl
  | succ n ih =>
    intro k pre
    by_cases h0 : name.getD k 0 = 0
    · have hcopy : strncpy name (n + 1) k = List.replicate (n + 1) 0 := by
        rw [strncpy, if_pos h0]
      rw [hcopy, strncpy, if_pos]
      rw [List.getD_append_right _ _ _ _ (Nat.le_refl _), Nat.sub_self]
      rfl
    · have hcopy : strncpy name (n + 1) k = name.getD k 0 :: strncpy name n (k + 1) := by
        rw [strncpy, if_neg h0]
      have hhead : (pre ++ name.getD k 0 :: strncpy name n (k + 1)).getD pre.length 0 =
          name.getD k 0 := by
        rw [List.getD_append_right _ _ _ _ (Nat.le_refl _), Nat.sub_self]
        rfl
      have htail := ih (k + 1) (pre ++ [name.getD k 0])
      rw [List.append_assoc, List.singleton_append, List.length_append, List.length_singleton]
        at htail
      rw [hcopy, strncpy, hhead, if_neg h0, htail]

theorem nameField_nameField : nameField (nameField name) = nameField name :=
  strncpy_append DIRSIZ 0 []

theorem direntInum_newDirent (hlt : inum < 65536) : direntInum (newDirent inum name) = inum := by
  have hlow : (digit inum 0).toNat = inum % 256 := by
    unfold digit
    rw [pow_zero, Nat.div_one, BitVec.toNat_ofNat]
  have hhigh : (digit inum 1).toNat = inum / 256 := by
    unfold digit
    rw [pow_one, BitVec.toNat_ofNat, Nat.mod_eq_of_lt (by omega)]
  show (digit inum 0).toNat + 256 * (digit inum 1).toNat = inum
  omega

theorem length_newDirent : (newDirent inum name).length = 16 := by
  show (strncpy name DIRSIZ 0).length + 2 = 16
  rw [length_strncpy]
  rfl

/-- The bytes that `writei` is given. -/
theorem bytes_newDirent :
    ((List.range 16).map fun j => (newDirent inum name).getD j 0) = newDirent inum name := by
  apply List.ext_getElem
  · rw [List.length_map, List.length_range, length_newDirent]
  · intro j _ hj
    rw [List.getElem_map, List.getElem_range, List.getD_eq_getElem _ _ hj]

/-- What an entry says: nothing when its number is 0, and else a name and a number. -/
def direntSlot (de : List Byte) : Option (List Byte × Nat) :=
  if direntInum de = 0 then none else some (nameField (direntName de), direntInum de)

theorem direntSlot_inum {de : List Byte} {v : Nat} (h : direntSlot de = some (name, v)) :
    v = direntInum de := by
  unfold direntSlot at h
  split at h
  · cases h
  · cases h
    rfl

theorem direntSlot_newDirent (hpos : 1 ≤ inum) (hlt : inum < 65536) :
    direntSlot (newDirent inum name) = some (nameField name, inum) := by
  have hname : nameField (direntName (newDirent inum name)) = nameField name := nameField_nameField
  unfold direntSlot
  rw [direntInum_newDirent hlt, if_neg (by omega), hname]

/-! ## The slots of a directory -/

namespace Vol

variable {V V' : Vol} {i : Inum}

/-- Entry `k` of a directory. -/
def dirent (V : Vol) (i : Inum) (k : Nat) : List Byte :=
  ((V.contents i).drop (16 * k)).take 16

def dirSlots (V : Vol) (i : Inum) : Slots (List Byte) Nat where
  size := (V.cur i).size.toNat / 16
  slot k := direntSlot (V.dirent i k)

/-- The entries in use have pairwise different names. -/
def NamesDiffer (V : Vol) (i : Inum) : Prop :=
  ∀ a b, a < (V.cur i).size.toNat / 16 → b < (V.cur i).size.toNat / 16 →
    direntInum (V.dirent i a) ≠ 0 → direntInum (V.dirent i b) ≠ 0 →
    namecmp (direntName (V.dirent i a)) (direntName (V.dirent i b)) = true → a = b

theorem namesDiffer_iff : V.NamesDiffer i ↔ (V.dirSlots i).Distinct := by
  constructor
  · intro h a b ha hb k v w hsa hsb
    have hsa : direntSlot (V.dirent i a) = some (k, v) := hsa
    have hsb : direntSlot (V.dirent i b) = some (k, w) := hsb
    unfold direntSlot at hsa hsb
    split at hsa
    · cases hsa
    · rename_i ha0
      split at hsb
      · cases hsb
      · rename_i hb0
        have hka := congrArg Prod.fst (Option.some.inj hsa)
        have hkb := congrArg Prod.fst (Option.some.inj hsb)
        exact h a b ha hb ha0 hb0 (namecmp_iff.mpr (hka.trans hkb.symm))
  · intro h a b ha hb ha0 hb0 hcmp
    have hsa : (V.dirSlots i).slot a = _ := if_neg ha0
    have hsb : (V.dirSlots i).slot b = _ := if_neg hb0
    rw [namecmp_iff.mp hcmp] at hsa
    exact h a b ha hb _ _ _ hsa hsb

/-- Writing 16 bytes at the place of an entry, or behind the last one. -/
theorem dirent_splice {l de : List Byte} {a : Nat} (hde : de.length = 16)
    (hk : 16 * k ≤ l.length) : ((splice l (16 * k) de).drop (16 * a)).take 16 =
      if a = k then de else (l.drop (16 * a)).take 16 := by
  apply List.ext_getElem?
  intro o
  by_cases ho : o < 16
  · rw [List.getElem?_take_of_lt ho, List.getElem?_drop, getElem?_splice hk, hde]
    by_cases ha : a = k
    · rw [if_pos ha, if_pos (by omega)]
      congr 1
      omega
    · rw [if_neg ha, if_neg (by omega), List.getElem?_take_of_lt ho, List.getElem?_drop]
  · rw [List.getElem?_take_eq_none (by omega), List.getElem?_eq_none]
    split
    · omega
    · rw [List.length_take]
      omega

/-- The slots of a directory after a write of `de` at slot `k`. -/
theorem dirSlots_splice {de : List Byte} (hde : de.length = 16)
    (hk : 16 * k ≤ (V.cur i).size.toNat)
    (hsize : (V'.cur i).size.toNat = max (V.cur i).size.toNat (16 * k + 16))
    (hcont : V'.contents i = splice (V.contents i) (16 * k) de) :
    V'.dirSlots i = (V.dirSlots i).set k (direntSlot de) := by
  have hsize' : (V'.cur i).size.toNat / 16 = max ((V.cur i).size.toNat / 16) (k + 1) := by omega
  have hslot : (fun a => direntSlot (V'.dirent i a)) =
      update (fun a => direntSlot (V.dirent i a)) k (direntSlot de) := by
    funext a
    have hent : V'.dirent i a = if a = k then de else V.dirent i a := by
      unfold dirent
      rw [hcont, dirent_splice hde (by rw [length_contents]; exact hk)]
    rw [hent, update_apply]
    split
    · rfl
    · rfl
  unfold dirSlots Slots.set
  rw [hsize', hslot]

/-- A file ends where the map of its blocks does. -/
theorem Consistent.size_le (hV : V.Consistent) (htype : (V.cur i).type ≠ 0) :
    (V.cur i).size.toNat ≤ (NDIRECT + NTINDIRECT) * BSIZE := by
  by_contra hgt
  obtain ⟨k, js, hp⟩ := exists_path (hV.mapped i htype (NDIRECT + NTINDIRECT) (by omega))
  have hnone : NDIRECT + NTINDIRECT = 2097162 := rfl
  rcases bmapPath_cases hp with h | h | h | h <;> omega

end Vol

namespace FsImage

variable {s s' : FsImage} {cur : Inum → Dinode} {dp dp' : Dinode} {i : Inum}

/-! ## The loop over the entries -/

theorem length_dirent {V : Vol} (hcur : V.cur i = dp) :
    (V.dirent i k).length = min 16 (dp.size.toNat - 16 * k) := by
  unfold Vol.dirent
  rw [List.length_take, List.length_drop, Vol.length_contents, hcur]

/-- The test of `dirlookup`. -/
theorem direntSlot_iff {de : List Byte} :
    (direntInum de != 0 && namecmp name (direntName de)) = true ↔
      direntSlot de = some (nameField name, direntInum de) := by
  unfold direntSlot
  rw [Bool.and_eq_true, bne_iff_ne, namecmp_iff]
  constructor
  · rintro ⟨h0, hname⟩
    rw [if_neg h0, hname]
  · intro h
    split at h
    · cases h
    · rename_i h0
      exact ⟨h0, (congrArg Prod.fst (Option.some.inj h)).symm⟩

section Entries

variable {V : Vol} (hV : V.Consistent) (harea : V.area = s.area) (hcur : V.cur i = dp)
  (hdir : dp.type = T_DIR)

include hV harea hcur hdir

/-- The loop reads entry `k`. -/
theorem readi_dirent (hk : 16 * k ≤ dp.size.toNat) :
    s.readi dp (.ofNat 32 (16 * k)) 16 = some (.done (V.dirent i k), s, dp) := by
  have htype : dp.type ≠ 0 := by
    rw [hdir]
    decide
  have hdev : dp.type ≠ T_DEV := by
    rw [hdir]
    decide
  have hmax : (NDIRECT + NTINDIRECT) * BSIZE + 16 < 2 ^ 32 := by decide
  have hsize := hV.size_le (i := i) (by rw [hcur]; exact htype)
  rw [hcur] at hsize
  have hoff : (BitVec.ofNat 32 (16 * k)).toNat = 16 * k := by
    rw [BitVec.toNat_ofNat, Nat.mod_eq_of_lt (by omega)]
  have hadd : (BitVec.ofNat 32 (16 * k) + 16).toNat = 16 * k + 16 := by
    rw [toNat_add_of_lt (by rw [hoff]; show _ + 16 < _; omega), hoff]
    rfl
  have hin : ¬ (dp.size < .ofNat 32 (16 * k) ∨
      BitVec.ofNat 32 (16 * k) + 16 < .ofNat 32 (16 * k)) := by
    rw [BitVec.lt_def, BitVec.lt_def, hadd, hoff]
    omega
  rw [readi_spec hV harea hcur htype hdev, if_neg hin, hoff]
  rfl

/-- The loops of `dirlookup` and `dirlink` from entry `k` on, with `m` entries to go: they stop at
the first one that `p` accepts. -/
theorem dirScan_spec {p : List Byte → Bool} : ∀ m {k fuel}, k + m = dp.size.toNat / 16 → m < fuel →
    s.dirScan p dp fuel (16 * k) =
      match (List.range' k m).find? fun a => p (V.dirent i a) with
      | some a => some (some (V.dirent i a), 16 * a, s, dp)
      | none => if 16 ∣ dp.size.toNat then some (none, dp.size.toNat, s, dp) else none := by
  intro m
  induction m with
  | zero =>
    intro k fuel hk hfuel
    obtain ⟨fuel, rfl⟩ : ∃ f, fuel = f + 1 := ⟨fuel - 1, by omega⟩
    rw [dirScan]
    by_cases hdvd : 16 ∣ dp.size.toNat
    · rw [if_neg (by omega)]
      have hend : 16 * k = dp.size.toNat := by omega
      rw [hend]
      exact (if_pos hdvd).symm
    · have hlen : (V.dirent i k).length ≠ 16 := by
        rw [length_dirent hcur]
        omega
      rw [if_pos (by omega), readi_dirent hV harea hcur hdir (by omega)]
      show (if (V.dirent i k).length = 16 then _ else none) = _
      rw [if_neg hlen]
      exact (if_neg hdvd).symm
  | succ m ih =>
    intro k fuel hk hfuel
    obtain ⟨fuel, rfl⟩ : ∃ f, fuel = f + 1 := ⟨fuel - 1, by omega⟩
    have hlen : (V.dirent i k).length = 16 := by
      rw [length_dirent hcur]
      omega
    rw [dirScan, if_pos (by omega), readi_dirent hV harea hcur hdir (by omega), List.range'_succ]
    show (if (V.dirent i k).length = 16 then _ else none) = _
    rw [if_pos hlen]
    by_cases hp : p (V.dirent i k) = true
    · rw [if_pos hp, List.find?_cons, hp]
    · rw [if_neg hp, List.find?_cons, Bool.not_eq_true _ |>.mp hp]
      exact ih (k := k + 1) (by omega) (by omega)

/-- `dirlookup` stops at the first entry in use that has the name. -/
theorem dirlookup_eq : s.dirlookup dp name =
      match (List.range' 0 (dp.size.toNat / 16)).find? fun a =>
        direntInum (V.dirent i a) != 0 && namecmp name (direntName (V.dirent i a)) with
      | some a => some (some (direntInum (V.dirent i a), 16 * a), s, dp)
      | none => if 16 ∣ dp.size.toNat then some (none, s, dp) else none := by
  have hscan := dirScan_spec hV harea hcur hdir
    (p := fun de => direntInum de != 0 && namecmp name (direntName de)) (dp.size.toNat / 16)
    (k := 0) (Nat.zero_add _) (Nat.lt_succ_self _)
  rw [Nat.mul_zero] at hscan
  unfold dirlookup
  rw [if_neg (not_not.mpr hdir), hscan]
  cases (List.range' 0 (dp.size.toNat / 16)).find? fun a =>
      direntInum (V.dirent i a) != 0 && namecmp name (direntName (V.dirent i a)) with
  | some a => rfl
  | none =>
    dsimp only
    split
    · rfl
    · rfl

/-- `dirlookup` searches the slots. -/
theorem dirlookup_spec (hdist : (V.dirSlots i).Distinct) : s.dirlookup dp name =
      match (V.dirSlots i).find (nameField name) with
      | some (k, inum) => some (some (inum, 16 * k), s, dp)
      | none => if 16 ∣ dp.size.toNat then some (none, s, dp) else none := by
  have hsize : (V.dirSlots i).size = dp.size.toNat / 16 := by
    show (V.cur i).size.toNat / 16 = _
    rw [hcur]
  rw [dirlookup_eq hV harea hcur hdir]
  cases hf : (List.range' 0 (dp.size.toNat / 16)).find? fun a =>
      direntInum (V.dirent i a) != 0 && namecmp name (direntName (V.dirent i a)) with
  | some a =>
    have ha : a < (V.dirSlots i).size := by
      have hmem := List.mem_of_find?_eq_some hf
      rw [List.mem_range'_1] at hmem
      omega
    have htest := List.find?_some hf
    have hslot := direntSlot_iff.mp htest
    rw [hdist.find_eq_some.mpr ⟨ha, hslot⟩]
  | none =>
    have hnone : (V.dirSlots i).find (nameField name) = none := by
      rw [Slots.find_eq_none]
      intro j hj v hslot
      have hslot : direntSlot (V.dirent i j) = some (nameField name, v) := hslot
      refine List.find?_eq_none.mp hf j ?_ (direntSlot_iff.mpr ?_)
      · rw [List.mem_range'_1]
        omega
      · rw [← direntSlot_inum hslot]
        exact hslot
    rw [hnone]

end Entries

/-! ## The entries of a directory -/

/-- What `dirlookup` returns; a panic is `none`. -/
def dirGet (s : FsImage) (dp : Dinode) (name : List Byte) : Option (Option (Nat × Nat)) :=
  (s.dirlookup dp name).map Prod.fst

/-- The directory is written and its names differ; on the disk no inode but its own has changed, and
that one is the copy if it was so before. -/
structure Rewritten (s : FsImage) (cur : Inum → Dinode) (i : Inum) (s' : FsImage) (dp' : Dinode) :
    Prop where
  type : dp'.type = T_DIR
  consistent : (s'.vol (update cur i dp')).Consistent
  differ : (s'.vol (update cur i dp')).NamesDiffer i
  disk : ∀ j : Inum, j ≠ i → s'.dinode j = s.dinode j
  through : s.dinode i = cur i → s'.dinode i = dp'

/-- There is a free entry, or room for one more. -/
def HasSlot (s : FsImage) (cur : Inum → Dinode) (i : Inum) : Prop :=
  (∃ j < (cur i).size.toNat / 16, direntInum ((s.vol cur).dirent i j) = 0) ∨
    (cur i).size.toNat + 16 ≤ (NDIRECT + NTINDIRECT) * BSIZE ∧ Enough s cur i (cur i).size.toNat 16

section Directory

variable (hV : (s.vol cur).Consistent)

include hV

/-- The blocks of a file have no gap below its size. -/
theorem enough_inside (htype : (cur i).type ≠ 0) {off n : Nat}
    (hin : off + n ≤ (cur i).size.toNat) : Enough s cur i off n := by
  have hgap : (s.vol cur).gap (ways i off n) = ∅ := by
    apply Finset.filter_eq_empty_iff.mpr
    intro x hx h0
    obtain ⟨j, hj, hx⟩ := Finset.mem_biUnion.mp hx
    have hj := Finset.mem_range.mp hj
    have hlook : (s.vol cur).lookup i ((off + j) / BSIZE) ≠ 0 := by
      refine hV.mapped i htype _ ?_
      have := Nat.div_mul_le_self (off + j) BSIZE
      show _ < (cur i).size.toNat
      omega
    obtain ⟨k, js, hp⟩ := Vol.exists_path hlook
    obtain ⟨hr, q, hq⟩ := (Vol.mem_places hp).mp hx
    rw [Vol.lookup_eq hp, ← hr, ← hq] at hlook
    exact follow_ne_zero_of_append hlook h0
  unfold Enough Vol.Room
  rw [hgap]
  exact Nat.zero_le _

/-- The map that `dirlookup` reads from the slots of a directory. -/
theorem dirGet_spec (hcur : cur i = dp) (hdir : dp.type = T_DIR)
    (hdist : ((s.vol cur).dirSlots i).Distinct) : s.dirGet dp name =
      match ((s.vol cur).dirSlots i).find (nameField name) with
      | some (k, inum) => some (some (inum, 16 * k))
      | none => if 16 ∣ dp.size.toNat then some none else none := by
  unfold dirGet
  rw [dirlookup_spec hV rfl hcur hdir hdist]
  split
  · rfl
  · split
    · rfl
    · rfl

variable (hdir : (cur i).type = T_DIR)

include hdir

/-- An entry is overwritten, or added at the end. -/
theorem writeEntry_spec {de : List Byte} (hk : 16 * k ≤ (cur i).size.toNat)
    (h : s.writeEntry i (cur i) de (16 * k) = some (s', dp')) :
    (s'.vol (update cur i dp')).Consistent ∧ dp'.type = T_DIR ∧
      dp'.size.toNat = max (cur i).size.toNat (16 * k + 16) ∧
      (s'.vol (update cur i dp')).dirSlots i =
        ((s.vol cur).dirSlots i).set k (direntSlot ((List.range 16).map fun j => de.getD j 0)) ∧
      (∀ j : Inum, j ≠ i → s'.dinode j = s.dinode j) ∧ (s.dinode i = cur i → s'.dinode i = dp') := by
  have hupd : update cur i (cur i) = cur := update_eq_self i cur
  have htype : (cur i).type ≠ 0 := by
    rw [hdir]
    decide
  have hmax : (NDIRECT + NTINDIRECT) * BSIZE < 2 ^ 32 := by decide
  have hsize := hV.size_le htype
  have hsize : (cur i).size.toNat ≤ (NDIRECT + NTINDIRECT) * BSIZE := hsize
  have hoff : (BitVec.ofNat 32 (16 * k)).toNat = 16 * k := by
    rw [BitVec.toNat_ofNat, Nat.mod_eq_of_lt (by omega)]
  obtain ⟨⟨r, s₁, dp₁⟩, hwrite, h⟩ := Option.bind_eq_some_iff.mp h
  cases r with
  | error => cases h
  | device => cases h
  | done m =>
    dsimp only at h
    split at h
    · cases h
      obtain ⟨-, hst⟩ := writei_spec paths_ways (by rw [hupd]; exact hV) htype
        (fun o => places_subset_ways) hwrite
      have hsixteen : (16 : Word).toNat = 16 := rfl
      rw [hoff, hsixteen] at hst
      obtain ⟨size, addrs, rfl⟩ := hst.same
      refine ⟨hst.consistent, hdir, hst.size, ?_, hst.disk, hst.through⟩
      refine Vol.dirSlots_splice (by simp) hk ?_ ?_
      · show (update cur i _ i).size.toNat = _
        rw [update_self]
        exact hst.size
      · have hcont := hst.contents
        rw [hupd] at hcont
        exact hcont
    · cases h

theorem writeEntry_total {de : List Byte} (hk : 16 * k ≤ (cur i).size.toNat)
    (hrange : 16 * k + 16 ≤ (NDIRECT + NTINDIRECT) * BSIZE) (hroom : Enough s cur i (16 * k) 16) :
    ∃ s' dp', s.writeEntry i (cur i) de (16 * k) = some (s', dp') := by
  have hupd : update cur i (cur i) = cur := update_eq_self i cur
  have htype : (cur i).type ≠ 0 := by
    rw [hdir]
    decide
  have hdev : (cur i).type ≠ T_DEV := by
    rw [hdir]
    decide
  have hmax : (NDIRECT + NTINDIRECT) * BSIZE < 2 ^ 32 := by decide
  have hoff : (BitVec.ofNat 32 (16 * k)).toNat = 16 * k := by
    rw [BitVec.toNat_ofNat, Nat.mod_eq_of_lt (by omega)]
  have hsixteen : (16 : Word).toNat = 16 := rfl
  have hwrite : ∃ s' dp', s.writei i (cur i) (fun j => de.getD j 0) (.ofNat 32 (16 * k)) 16 =
      some (.done (16 : Word).toNat, s', dp') :=
    writei_total paths_ways (by rw [hupd]; exact hV) htype hdev (by rw [hoff]; exact hk)
      (by rw [hoff, hsixteen]; exact hrange) (fun o => places_subset_ways)
      (by rw [hupd, hoff]; exact hroom)
  obtain ⟨s', dp', hw⟩ := hwrite
  unfold writeEntry
  rw [hw]
  exact ⟨s', dp', rfl⟩

/-- `dirlink` of a new name writes the first free slot, or the one behind the last. -/
theorem addEntry_spec (hwhole : 16 ∣ (cur i).size.toNat) : ∃ k, 16 * k ≤ (cur i).size.toNat ∧
      (k < (cur i).size.toNat / 16 → ((s.vol cur).dirSlots i).slot k = none) ∧
      ((∃ j < (cur i).size.toNat / 16, direntInum ((s.vol cur).dirent i j) = 0) →
        k < (cur i).size.toNat / 16) ∧
      s.addEntry i (cur i) name inum = s.writeEntry i (cur i) (newDirent inum name) (16 * k) := by
  have hcur : (s.vol cur).cur i = cur i := rfl
  have hscan := dirScan_spec hV rfl hcur hdir (p := fun de => direntInum de == 0)
    ((cur i).size.toNat / 16) (k := 0) (Nat.zero_add _) (Nat.lt_succ_self _)
  rw [Nat.mul_zero] at hscan
  unfold addEntry
  rw [hscan]
  cases hf : (List.range' 0 ((cur i).size.toNat / 16)).find? fun a =>
      direntInum ((s.vol cur).dirent i a) == 0 with
  | some a =>
    have hmem := List.mem_of_find?_eq_some hf
    rw [List.mem_range'_1] at hmem
    have htest := List.find?_some hf
    refine ⟨a, by omega, fun _ => if_pos (eq_of_beq htest), fun _ => by omega, rfl⟩
  | none =>
    refine ⟨(cur i).size.toNat / 16, by omega, by omega, ?_, ?_⟩
    · rintro ⟨j, hj, h0⟩
      refine absurd (beq_iff_eq.mpr h0) (List.find?_eq_none.mp hf j ?_)
      rw [List.mem_range'_1]
      omega
    · dsimp only
      rw [if_pos hwhole, Nat.mul_div_cancel' hwhole]
      rfl

theorem addEntry_total
    (hwhole : 16 ∣ (cur i).size.toNat) (hslot : HasSlot s cur i) (name : List Byte) (inum : Nat) :
    ∃ s' dp', s.addEntry i (cur i) name inum = some (s', dp') := by
  have htype : (cur i).type ≠ 0 := by
    rw [hdir]
    decide
  have hmax : (cur i).size.toNat ≤ (NDIRECT + NTINDIRECT) * BSIZE := hV.size_le htype
  obtain ⟨k, hk, -, hfree, heq⟩ := addEntry_spec hV hdir hwhole
  rw [heq]
  by_cases hin : k < (cur i).size.toNat / 16
  · exact writeEntry_total hV hdir hk (by omega) (enough_inside hV htype (by omega))
  · have hend : 16 * k = (cur i).size.toNat := by omega
    rcases hslot with hex | ⟨hrange, henough⟩
    · exact absurd (hfree hex) hin
    · rw [← hend] at hrange henough
      exact writeEntry_total hV hdir hk hrange henough

/-! ## The map -/

variable (hdist : ((s.vol cur).dirSlots i).Distinct)

include hdist

theorem dirGet_found {x : Nat × Nat} : s.dirGet (cur i) name = some (some x) ↔
      ∃ k, x.2 = 16 * k ∧ ((s.vol cur).dirSlots i).find (nameField name) = some (k, x.1) := by
  rw [dirGet_spec hV rfl hdir hdist]
  constructor
  · intro h
    split at h
    · rename_i k j hf
      cases h
      exact ⟨k, rfl, hf⟩
    · split at h
      · cases h
      · cases h
  · rintro ⟨k, hx, hf⟩
    rw [hf]
    dsimp only
    rw [← hx]

theorem dirGet_absent : s.dirGet (cur i) name = some none ↔
      ((s.vol cur).dirSlots i).find (nameField name) = none ∧ 16 ∣ (cur i).size.toNat := by
  rw [dirGet_spec hV rfl hdir hdist]
  constructor
  · intro h
    split at h
    · cases h
    · rename_i hf
      split at h
      · rename_i hwhole
        exact ⟨hf, hwhole⟩
      · cases h
  · rintro ⟨hf, hwhole⟩
    rw [hf]
    exact if_pos hwhole

/-- A lookup changes nothing. -/
theorem dirlookup_of_dirGet {x : Option (Nat × Nat)}
    (hget : s.dirGet (cur i) name = some x) : s.dirlookup (cur i) name = some (x, s, cur i) := by
  have hcur : (s.vol cur).cur i = cur i := rfl
  unfold dirGet at hget
  rw [dirlookup_spec hV rfl hcur hdir hdist] at hget ⊢
  split at hget
  · cases hget
    rfl
  · split at hget
    · rename_i hwhole
      cases hget
      exact if_pos hwhole
    · cases hget

/-- The map after slot `k` is written, for a name that the slot has nothing to do with. -/
theorem dirGet_other {other : List Byte}
    (hV' : (s'.vol (update cur i dp')).Consistent) (hdir' : dp'.type = T_DIR)
    (hdist' : ((s'.vol (update cur i dp')).dirSlots i).Distinct)
    (hfind : ((s'.vol (update cur i dp')).dirSlots i).find (nameField other) =
      ((s.vol cur).dirSlots i).find (nameField other))
    (hwhole : 16 ∣ dp'.size.toNat ↔ 16 ∣ (cur i).size.toNat) :
    s'.dirGet dp' other = s.dirGet (cur i) other := by
  rw [dirGet_spec hV' (update_self i dp' cur) hdir' hdist', dirGet_spec hV rfl hdir hdist,
    hfind]
  simp only [hwhole]

/-- The new name is in the map, and the others as they were. -/
theorem addEntry_adds (hnew : ((s.vol cur).dirSlots i).find (nameField name) = none)
    (hwhole : 16 ∣ (cur i).size.toNat) (hpos : 1 ≤ inum) (hlt : inum < 65536)
    (hadd : s.addEntry i (cur i) name inum = some (s', dp')) :
    Rewritten s cur i s' dp' ∧ (∃ off, s'.dirGet dp' name = some (some (inum, off))) ∧
      ∀ other, namecmp other name = false → s'.dirGet dp' other = s.dirGet (cur i) other := by
  obtain ⟨k, hk, hfree, -, heq⟩ := addEntry_spec hV hdir hwhole
  obtain ⟨hV', hdir', hsize', hslots, hdisk, hthrough⟩ :=
    writeEntry_spec hV hdir hk (heq.symm.trans hadd)
  rw [bytes_newDirent, direntSlot_newDirent hpos hlt] at hslots
  obtain ⟨hdist', hget, hothers⟩ := hdist.insert (v := inum) hnew (j := k)
    (by show k ≤ (cur i).size.toNat / 16; omega) hfree
  rw [← hslots] at hdist' hget hothers
  refine ⟨⟨hdir', hV', Vol.namesDiffer_iff.mpr hdist', hdisk, hthrough⟩, ⟨16 * k, ?_⟩, ?_⟩
  · rw [dirGet_spec hV' (update_self i dp' cur) hdir' hdist', hget]
  · intro other hcmp
    exact dirGet_other hV hdir hdist hV' hdir' hdist' (hothers _ (nameField_ne hcmp)) (by omega)

/-- The name is not in the map, and the others as they were. -/
theorem clear_removes {j k : Nat}
    (hf : ((s.vol cur).dirSlots i).find (nameField name) = some (k, j)) :
    ∃ s' dp', s.writeEntry i (cur i) [] (16 * k) = some (s', dp') ∧ Rewritten s cur i s' dp' ∧
      s'.dirGet dp' name = (if 16 ∣ (cur i).size.toNat then some none else none) ∧
      ∀ other, namecmp other name = false → s'.dirGet dp' other = s.dirGet (cur i) other := by
  have htype : (cur i).type ≠ 0 := by
    rw [hdir]
    decide
  have hmax : (cur i).size.toNat ≤ (NDIRECT + NTINDIRECT) * BSIZE := hV.size_le htype
  have hin : k < (cur i).size.toNat / 16 := (Slots.slot_of_find hf).1
  obtain ⟨s', dp', hwrite⟩ : ∃ s' dp', s.writeEntry i (cur i) [] (16 * k) = some (s', dp') :=
    writeEntry_total hV hdir (by omega) (by omega) (enough_inside hV htype (by omega))
  have hclear : direntSlot ((List.range 16).map fun j => ([] : List Byte).getD j 0) = none :=
    rfl
  obtain ⟨hV', hdir', hsize', hslots, hdisk, hthrough⟩ := writeEntry_spec hV hdir (by omega) hwrite
  rw [hclear] at hslots
  obtain ⟨hdist', hget, hothers⟩ := hdist.remove hf
  rw [← hslots] at hdist' hget hothers
  have hsame : dp'.size.toNat = (cur i).size.toNat := by omega
  refine ⟨s', dp', hwrite, ⟨hdir', hV', Vol.namesDiffer_iff.mpr hdist', hdisk, hthrough⟩, ?_, ?_⟩
  · rw [dirGet_spec hV' (update_self i dp' cur) hdir' hdist', hget, hsame]
  · intro other hcmp
    exact dirGet_other hV hdir hdist hV' hdir' hdist' (hothers _ (nameField_ne hcmp)) (by omega)

end Directory

end FsImage

/-! ## dirlink -/

namespace ISys

open FsImage

variable {s s' : ISys} {cur : Inum → Dinode} {i : Inum} {ip : Dinode} {name : List Byte}
  {inum : Nat}

/-- `iget` finds an entry for the inode, and `iput` its lock free. -/
def CanTouch (s : ISys) (inum : Nat) : Prop :=
  if h : inum < NINODES then
    if 0 < (s.icache ⟨inum, h⟩).ref then (s.icache ⟨inum, h⟩).locked = false else s.inUse < NINODE
  else s.inUse < NINODE

/-- The disk is the same, every inode has its references, and those in use are as they were. -/
def Same (s s' : ISys) : Prop :=
  s'.img = s.img ∧ ∀ j, (s'.icache j).ref = (s.icache j).ref ∧
    (0 < (s.icache j).ref → s'.icache j = s.icache j)

theorem setEntry_setEntry {e e' : IEntry} : (s.setEntry i e).setEntry i e' = s.setEntry i e' := by
  unfold setEntry
  rw [update_idem]

theorem setEntry_self : s.setEntry i (s.icache i) = s := by
  unfold setEntry
  rw [update_eq_self]

theorem icache_setEntry_self {e : IEntry} : (s.setEntry i e).icache i = e := by
  show update s.icache i e i = e
  rw [update_self]

/-- An inode in use gets its reference back. -/
theorem touch_used {j : Inum} {ref : Nat} {copy : Option Dinode} {locked : Bool}
    (hj : s.icache j = ⟨ref + 1, copy, locked⟩) :
    (s.iget j).bind (·.iput j) = if locked = false then some s else none := by
  have hback : s.setEntry j ⟨ref + 1, copy, locked⟩ = s := hj ▸ setEntry_self
  unfold iget iput
  rw [hj, if_pos (Nat.succ_pos ref), Option.bind_some, icache_setEntry_self]
  dsimp only
  split
  · rename_i hl
    rw [if_pos hl.2, setEntry_setEntry, Nat.add_sub_cancel, hback]
    split
    · rfl
    · rw [if_neg fun h0 => Nat.succ_ne_zero ref (Nat.succ.inj h0.2)]
  · rename_i hl
    rw [if_neg fun h0 => hl ⟨Nat.succ_pos _, h0⟩]

/-- An inode that is not in use takes an entry and leaves it. -/
theorem touch_unused {j : Inum} (hj : (s.icache j).ref = 0) :
    (s.iget j).bind (·.iput j) = if s.inUse < NINODE then some (s.setEntry j { ref := 0 }) else none := by
  unfold iget
  rw [hj, if_neg (Nat.lt_irrefl 0)]
  split
  · unfold iput
    rw [Option.bind_some, icache_setEntry_self, if_pos ⟨Nat.one_pos, rfl⟩]
    dsimp only
    rw [setEntry_setEntry]
  · rfl

/-- A reference is taken and dropped. -/
theorem touch_spec : (∃ s', s.touch inum = some s' ∧ Same s s') ∧ s.CanTouch inum ∨
    s.touch inum = none ∧ ¬ s.CanTouch inum := by
  have hself : Same s s := ⟨rfl, fun j => ⟨rfl, fun _ => rfl⟩⟩
  unfold touch CanTouch
  split
  · rename_i hlt
    generalize (⟨inum, hlt⟩ : Inum) = j
    cases hj : s.icache j with
    | mk ref copy locked =>
      cases ref with
      | succ ref =>
        rw [touch_used hj]
        cases locked with
        | false => exact .inl ⟨⟨s, rfl, hself⟩, rfl⟩
        | true => exact .inr ⟨rfl, Bool.noConfusion⟩
      | zero =>
        rw [touch_unused (by rw [hj])]
        by_cases hroom : s.inUse < NINODE
        · rw [if_pos hroom]
          refine .inl ⟨⟨_, rfl, rfl, fun k => ?_⟩, hroom⟩
          show (update s.icache j _ k).ref = _ ∧ (_ → update s.icache j _ k = _)
          by_cases hk : k = j
          · subst hk
            rw [update_self, hj]
            exact ⟨rfl, fun h0 => absurd h0 (Nat.lt_irrefl 0)⟩
          · rw [update_of_ne hk]
            exact ⟨rfl, fun _ => rfl⟩
        · rw [if_neg hroom]
          exact .inr ⟨rfl, hroom⟩
  · by_cases hroom : s.inUse < NINODE
    · rw [if_pos hroom]
      exact .inl ⟨⟨s, rfl, hself⟩, hroom⟩
    · rw [if_neg hroom]
      exact .inr ⟨rfl, hroom⟩

theorem store_held (h : s.held i = some ip) : s.store i s.img ip = s := by
  have hcopy : (s.icache i).copy = some ip := (Option.ite_none_right_eq_some.mp h).2
  unfold store
  rw [← hcopy]
  exact setEntry_self

theorem icache_store_self {img : FsImage} {ip' : Dinode} :
    (s.store i img ip').icache i = { s.icache i with copy := some ip' } := icache_setEntry_self

theorem held_store {img : FsImage} {ip' : Dinode} (h : s.held i = some ip) :
    (s.store i img ip').held i = some ip' := by
  have hlock : (s.icache i).locked = true := (Option.ite_none_right_eq_some.mp h).1
  unfold held
  rw [icache_store_self]
  exact if_pos hlock

theorem dirlink_found {j : Nat} {off : Nat} (hheld : s.held i = some ip)
    (hlook : s.img.dirlookup ip name = some (some (j, off), s.img, ip)) :
    s.dirlink i name inum = (s.touch j).map fun s => (-1, s) := by
  unfold dirlink
  rw [hheld, Option.bind_some, hlook, Option.bind_some]
  dsimp only
  rw [store_held hheld]

theorem dirlink_new (hheld : s.held i = some ip)
    (hlook : s.img.dirlookup ip name = some (none, s.img, ip)) : s.dirlink i name inum =
      (s.img.addEntry i ip name inum).map fun (img, dp) => (0, s.store i img dp) := by
  unfold dirlink
  rw [hheld, Option.bind_some, hlook, Option.bind_some]

/-- Inode 1 is an empty directory. -/
def oneDir (i : Inum) : Dinode := if i.val = 1 then { type := T_DIR, nlink := 1 } else {}

/-- The caller has locked it. -/
def dirSys : ISys where
  img := blank.iupdate 1 (oneDir 1)
  icache := update (fun _ => {}) 1
    { ref := 1, copy := some (oneDir 1), locked := true }

theorem dirSys_consistent : (dirSys.img.vol oneDir).Consistent := by
  show ((blank.iupdate ((1 : Inum) : Nat) _).vol oneDir).Consistent
  rw [vol_iupdate]
  apply blank_consistent
  intro i
  unfold oneDir
  split <;> exact ⟨rfl, fun _ => rfl⟩

theorem dirSys_hasSlot : HasSlot dirSys.img oneDir 1 := by
  refine .inr ⟨by decide, ?_⟩
  show ((blank.iupdate ((1 : Inum) : Nat) _).vol oneDir).Room _
  rw [vol_iupdate]
  exact blank_room (by decide)

theorem dirSys_differ : (dirSys.img.vol oneDir).NamesDiffer 1 :=
  fun a _ ha => absurd ha (Nat.not_lt_zero a)

end ISys

end Xv6
