import Mathlib.Data.List.TakeWhile
import Xv6.Lib.Words
import Xv6.Fs.Path
import Xv6.Laws.Fs.Dir
import Xv6.Laws.Fs.Icache

/-!
# Path names

The elements that `skipelem` takes from a path are the words of the string between its slashes
(`components`); `nameBuf` is what it leaves in the buffer. `Apart` compares a state in the middle of
`namex` with the one it began in: the loop holds one reference, to the inode it stands at, and at
most the lock of that inode. `iput` can free an inode without links to which there is no other
reference; such an inode cannot be locked again, so that each directory the loop looks into is as it
was (`Apart.ilock`), and what is returned is what the tree had before the call (`resolve`).
-/

namespace Xv6

open Function Xv6.Lib

variable {path rest name c : List Byte} {cs : List (List Byte)} {n k : Nat}

/-! ## The elements of a path -/

/-- The string that a pointer points to. -/
def cString (path : List Byte) : List Byte := path.takeWhile (· != 0)

/-- The maximal runs of characters other than slashes. -/
def components (path : List Byte) : List (List Byte) := words isSlash (cString path)

/-- The string in a buffer of `DIRSIZ` bytes, which need not have a zero. -/
def bufName (name : List Byte) : List Byte := cString (name.take DIRSIZ)

theorem isSlash_iff {x : Byte} : isSlash x = true ↔ x = slash := beq_iff_eq

theorem isSlash_eq_false {x : Byte} : isSlash x = false ↔ x ≠ slash := beq_eq_false_iff_ne

theorem inElem_iff {x : Byte} : inElem x = true ↔ x ≠ slash ∧ x ≠ 0 := by
  unfold inElem
  rw [Bool.and_eq_true, bne_iff_ne, bne_iff_ne]

theorem cString_cons {x : Byte} (hx : x ≠ 0) : cString (x :: path) = x :: cString path :=
  List.takeWhile_cons_of_pos (bne_iff_ne.mpr hx)

theorem cString_eq_nil (h : path.headD 0 = 0) : cString path = [] := by
  cases path with
  | nil => rfl
  | cons x path =>
    have hx : x = 0 := h
    rw [hx]
    rfl

/-- Leading slashes do not matter. -/
theorem components_dropWhile : components (path.dropWhile isSlash) = components path := by
  have hstr : cString (path.dropWhile isSlash) = (cString path).dropWhile isSlash := by
    induction path with
    | nil => rfl
    | cons x path ih =>
      by_cases hx : x = slash
      · have hx' : isSlash x = true := isSlash_iff.mpr hx
        have h0 : x ≠ 0 := by
          rw [hx]
          decide
        rw [List.dropWhile_cons_of_pos hx', cString_cons h0, List.dropWhile_cons_of_pos hx', ih]
      · have hx' : ¬ isSlash x = true := fun h => hx (isSlash_iff.mp h)
        rw [List.dropWhile_cons_of_neg hx']
        by_cases h0 : x = 0
        · rw [show cString (x :: path) = [] from cString_eq_nil h0]
          rfl
        · rw [cString_cons h0, List.dropWhile_cons_of_neg hx']
  unfold components
  rw [hstr, words_dropWhile]

theorem components_eq_nil_iff (h : path.headD 0 ≠ slash) :
    components path = [] ↔ path.headD 0 = 0 := by
  constructor
  · intro hnil
    cases path with
    | nil => rfl
    | cons x path =>
      by_contra h0
      have h0 : x ≠ 0 := h0
      unfold components at hnil
      rw [cString_cons h0] at hnil
      exact words_ne_nil (isSlash_eq_false.mpr h) hnil
  · intro h0
    unfold components
    rw [cString_eq_nil h0]
    rfl

theorem headD_dropWhile : (path.dropWhile isSlash).headD 0 ≠ slash := by
  induction path with
  | nil => decide
  | cons x path ih =>
    by_cases hx : x = slash
    · rw [List.dropWhile_cons_of_pos (isSlash_iff.mpr hx)]
      exact ih
    · rw [List.dropWhile_cons_of_neg fun h => hx (isSlash_iff.mp h)]
      exact hx

theorem takeWhile_inElem_ne_nil (hslash : path.headD 0 ≠ slash) (h0 : path.headD 0 ≠ 0) :
    path.takeWhile inElem ≠ [] := by
  cases path with
  | nil => exact absurd rfl h0
  | cons x path =>
    have hx : inElem x = true := inElem_iff.mpr ⟨hslash, h0⟩
    rw [List.takeWhile_cons_of_pos hx]
    nofun

/-- The first run of a path without leading slashes. -/
theorem components_run (hslash : path.headD 0 ≠ slash) (h0 : path.headD 0 ≠ 0) :
    components path = path.takeWhile inElem ::
      components (path.dropWhile inElem) := by
  generalize hc : path.takeWhile inElem = c
  generalize hr : path.dropWhile inElem = r
  have hsplit : path = c ++ r := by
    rw [← hc, ← hr]
    exact (List.takeWhile_append_dropWhile ..).symm
  have hrun : ∀ x ∈ c, x ≠ slash ∧ x ≠ 0 := by
    intro x hx
    rw [← hc] at hx
    exact inElem_iff.mp (List.mem_takeWhile_imp hx)
  have hne : c ≠ [] := by
    rw [← hc]
    exact takeWhile_inElem_ne_nil hslash h0
  have hend : ∀ x ∈ (cString r).head?, isSlash x = true := by
    intro x hx
    cases r with
    | nil => cases hx
    | cons y r =>
      have hy := List.head?_dropWhile_not inElem path
      rw [hr] at hy
      by_cases hy0 : y = 0
      · rw [show cString (y :: r) = [] from cString_eq_nil hy0] at hx
        cases hx
      · rw [cString_cons hy0] at hx
        obtain rfl : y = x := Option.some.inj hx
        have hy : ¬ inElem y = true := by simpa using hy
        by_contra hns
        exact hy (inElem_iff.mpr ⟨isSlash_eq_false.mp (Bool.not_eq_true _ |>.mp hns), hy0⟩)
  have hstr : cString path = c ++ cString r := by
    unfold cString
    rw [hsplit, List.takeWhile_append_of_pos fun x hx => bne_iff_ne.mpr (hrun x hx).2]
  unfold components
  rw [hstr, words_run (fun x hx => isSlash_eq_false.mpr (hrun x hx).1) hne hend]

/-! ## Names in the buffer -/

theorem strncpy_congr {p q : List Byte} : ∀ n k,
    (∀ j, k ≤ j → j < k + n → p.getD j 0 = q.getD j 0) → strncpy p n k = strncpy q n k := by
  intro n
  induction n with
  | zero =>
    intro k _
    rfl
  | succ n ih =>
    intro k h
    unfold strncpy
    rw [h k (Nat.le_refl k) (by omega), ih (k + 1) fun j h1 h2 => h j (by omega) (by omega)]

/-- What stands behind a zero does not matter. -/
theorem strncpy_terminated {tail : List Byte} : ∀ n k, k ≤ c.length →
    strncpy (c ++ 0 :: tail) n k = strncpy c n k := by
  intro n
  induction n with
  | zero =>
    intro k _
    rfl
  | succ n ih =>
    intro k hk
    unfold strncpy
    by_cases hlt : k < c.length
    · have hget : (c ++ 0 :: tail).getD k 0 = c.getD k 0 := List.getD_append _ _ _ _ hlt
      rw [hget, ih (k + 1) hlt]
    · have hend : k = c.length := by omega
      have hzero : c.getD k 0 = 0 := List.getD_eq_default _ _ (by omega)
      have hget : (c ++ 0 :: tail).getD k 0 = 0 := by
        rw [List.getD_append_right _ _ _ _ (by omega), hend, Nat.sub_self]
        rfl
      rw [hget, hzero, if_pos rfl, if_pos rfl]

/-- The buffer after `skipelem` has read the element `c`. -/
def nameBuf (c name : List Byte) : List Byte :=
  if DIRSIZ ≤ c.length then c.take DIRSIZ ++ name.drop DIRSIZ else c ++ 0 :: name.drop (c.length + 1)

theorem nameField_nameBuf : nameField (nameBuf c name) = nameField c := by
  unfold nameBuf nameField
  split
  · rename_i hlen
    refine strncpy_congr DIRSIZ 0 fun j _ hj => ?_
    have hj : j < DIRSIZ := by omega
    rw [List.getD_append _ _ _ _ (by rw [List.length_take]; omega)]
    rw [List.getD_eq_getElem _ _ (by rw [List.length_take]; omega), List.getElem_take,
      List.getD_eq_getElem]
  · exact strncpy_terminated DIRSIZ 0 (Nat.zero_le _)

theorem cString_append {l : List Byte} (hc : ∀ x ∈ c, x ≠ 0) :
    cString (c ++ l) = c ++ cString l :=
  List.takeWhile_append_of_pos fun x hx => bne_iff_ne.mpr (hc x hx)

theorem bufName_nameBuf (hc : ∀ x ∈ c, x ≠ 0) : bufName (nameBuf c name) = c.take DIRSIZ := by
  unfold bufName nameBuf
  split
  · rename_i hlen
    have htake : (c.take DIRSIZ ++ name.drop DIRSIZ).take DIRSIZ = c.take DIRSIZ ++ [] := by
      rw [List.append_nil, List.take_left' (List.length_take_of_le hlen)]
    rw [htake, cString_append fun x hx => hc x (List.mem_of_mem_take hx)]
    exact List.append_nil _
  · rename_i hlen
    obtain ⟨m, hm⟩ : ∃ m, DIRSIZ - c.length = m + 1 := ⟨DIRSIZ - c.length - 1, by omega⟩
    rw [List.take_append, List.take_of_length_le (by omega), hm, List.take_succ_cons,
      cString_append hc]
    exact List.append_nil c

/-- `skipelem` at the end of a path. -/
theorem skipelem_none (h : components path = []) : skipelem path name = none := by
  rw [← components_dropWhile, components_eq_nil_iff headD_dropWhile] at h
  unfold skipelem
  exact if_pos h

/-- `skipelem` takes the first element. -/
theorem skipelem_some (h : components path = c :: cs) : ∃ rest,
    skipelem path name = some (rest, nameBuf c name) ∧ components rest = cs ∧
      (rest.headD 0 = 0 ↔ cs = []) ∧ rest.length < path.length ∧ ∀ x ∈ c, x ≠ 0 := by
  have h0 : (path.dropWhile isSlash).headD 0 ≠ 0 := by
    intro h0
    rw [← components_dropWhile, (components_eq_nil_iff headD_dropWhile).mpr h0] at h
    cases h
  rw [← components_dropWhile, components_run headD_dropWhile h0] at h
  obtain ⟨hc, hcs⟩ := List.cons.inj h
  have hne := takeWhile_inElem_ne_nil headD_dropWhile h0
  rw [hc] at hne
  generalize hp : path.dropWhile isSlash = p at h0 hc hcs
  have hlen : p.length ≤ path.length := by
    rw [← hp]
    exact (List.dropWhile_sublist _).length_le
  have hsplit : c ++ p.dropWhile inElem = p := by
    rw [← hc]
    exact List.takeWhile_append_dropWhile ..
  have htake : p.take c.length = c := by
    rw [← hsplit]
    exact List.take_left ..
  have hdrop : p.drop c.length = p.dropWhile inElem := by
    conv => lhs; rw [← hsplit]
    exact List.drop_left ..
  refine ⟨(p.dropWhile inElem).dropWhile isSlash, ?_, ?_, ?_, ?_, ?_⟩
  · unfold skipelem nameBuf
    rw [hp]
    dsimp only
    rw [if_neg h0, hc, hdrop, htake]
    by_cases hlong : DIRSIZ ≤ c.length
    · rw [if_pos hlong, if_pos hlong, ← List.take_append_of_le_length hlong, hsplit]
    · rw [if_neg hlong, if_neg hlong]
  · rw [components_dropWhile, hcs]
  · rw [← components_eq_nil_iff headD_dropWhile, components_dropWhile, hcs]
  · have hrest := (List.dropWhile_sublist isSlash (l := p.dropWhile inElem)).length_le
    have hsum := congrArg List.length hsplit
    rw [List.length_append] at hsum
    have hpos := List.length_pos_iff.mpr hne
    omega
  · intro x hx
    rw [← hc] at hx
    exact (inElem_iff.mp (List.mem_takeWhile_imp hx)).2

/-- What iterating `skipelem` yields: the names, and whether nothing of the path is left. -/
def elements : Nat → List Byte → List Byte → Option (List (List Byte × Bool))
  | 0, _, _ => none
  | fuel + 1, path, name =>
    match skipelem path name with
    | none => some []
    | some (path, name) =>
      (elements fuel path name).map ((bufName name, path.headD 0 = 0) :: ·)

/-- The components, each cut to `DIRSIZ` bytes, and the last one marked. -/
def marked : List (List Byte) → List (List Byte × Bool)
  | [] => []
  | c :: cs => (c.take DIRSIZ, cs.isEmpty) :: marked cs

theorem elements_spec : ∀ fuel {path name : List Byte}, path.length < fuel →
    elements fuel path name = some (marked (components path)) := by
  intro fuel
  induction fuel with
  | zero =>
    intro path name h
    exact absurd h (Nat.not_lt_zero _)
  | succ fuel ih =>
    intro path name hfuel
    unfold elements
    cases hcs : components path with
    | nil =>
      rw [skipelem_none hcs]
      rfl
    | cons c cs =>
      obtain ⟨rest, hskip, hrest, hlast, hlen, hc⟩ := skipelem_some hcs
      rw [hskip]
      dsimp only
      rw [ih (by omega), hrest, bufName_nameBuf hc]
      have hmark : decide (rest.headD 0 = 0) = cs.isEmpty := by
        rw [Bool.eq_iff_iff, decide_eq_true_iff, List.isEmpty_iff]
        exact hlast
      rw [hmark]
      rfl

/-! ## The tree -/

namespace Vol

variable {V V' : Vol} {i : Inum}

/-- The contents of a file depend on its inode and the data blocks. -/
theorem contents_congr (hcur : V'.cur i = V.cur i) (harea : V'.area = V.area) :
    V'.contents i = V.contents i := by
  have hlook : V'.lookup i = V.lookup i := lookup_congr (by rw [hcur]) (by rw [hcur]) harea
  have hbyte : V'.byteAt i = V.byteAt i := by
    funext o
    unfold byteAt
    rw [hlook, harea]
  unfold contents
  rw [hcur, hbyte]

end Vol

namespace FsImage

variable {s s' : FsImage} {i j : Inum} {dp : Dinode}

/-- `dirlookup` finds the same in two images with the same directory. -/
theorem dirGet_congr {name name' : List Byte} (hV : s.onDisk.Consistent)
    (hV' : s'.onDisk.Consistent) (harea : s'.area = s.area) (hdp : s.dinode i = dp)
    (hdp' : s'.dinode i = dp) (hname : nameField name' = nameField name) :
    s'.dirGet dp name' = s.dirGet dp name := by
  have hcmp : ∀ t, namecmp name' t = namecmp name t := by
    intro t
    rw [Bool.eq_iff_iff, namecmp_iff, namecmp_iff, hname]
  have hcont : s'.onDisk.contents i = s.onDisk.contents i :=
    Vol.contents_congr (hdp'.trans hdp.symm) harea
  have hent : ∀ k, s'.onDisk.dirent i k = s.onDisk.dirent i k := by
    intro k
    unfold Vol.dirent
    rw [hcont]
  unfold dirGet
  by_cases hdir : dp.type = T_DIR
  · rw [dirlookup_eq hV rfl hdp hdir, dirlookup_eq hV' rfl hdp' hdir]
    simp only [hcmp, hent]
    cases (List.range' 0 (dp.size.toNat / 16)).find? fun a =>
        direntInum (s.onDisk.dirent i a) != 0 && namecmp name (direntName (s.onDisk.dirent i a)) with
    | some a => rfl
    | none =>
      dsimp only
      split
      · rfl
      · rfl
  · unfold dirlookup
    rw [if_pos hdir, if_pos hdir]

/-- `dirlookup` in a directory of whole entries returns. -/
theorem dirlookup_returns (hV : s.onDisk.Consistent) (hdp : s.dinode i = dp) (hdir : dp.type = T_DIR)
    (hwhole : 16 ∣ dp.size.toNat) (name : List Byte) :
    ∃ found, s.dirlookup dp name = some (found, s, dp) := by
  rw [dirlookup_eq hV rfl hdp hdir]
  split
  · exact ⟨_, rfl⟩
  · rw [if_pos hwhole]
    exact ⟨_, rfl⟩

/-- The inode that directory `i` has under a name, if it is a directory. -/
def child (s : FsImage) (i : Inum) (name : List Byte) : Option Inum :=
  (s.dirGet (s.dinode i) name).join.bind fun x =>
    if h : x.1 < NINODES then some ⟨x.1, h⟩ else none

theorem child_eq_none (h : (s.dinode i).type ≠ T_DIR) : s.child i c = none := by
  have hget : s.dirGet (s.dinode i) c = none := by
    unfold dirGet dirlookup
    rw [if_pos h]
    rfl
  unfold child
  rw [hget]
  rfl

/-- The inode that a path leads to: the components are looked up one after the other. -/
def resolve (s : FsImage) (i : Inum) (cs : List (List Byte)) : Option Inum :=
  cs.foldlM s.child i

/-- The directory that all components but the last lead to. -/
def resolveParent (s : FsImage) (i : Inum) (cs : List (List Byte)) : Option Inum :=
  if cs = [] then none
  else (s.resolve i cs.dropLast).bind fun j => if (s.dinode j).type = T_DIR then some j else none

theorem resolve_cons : s.resolve i (c :: cs) = (s.child i c).bind fun j => s.resolve j cs := rfl

theorem resolveParent_single : s.resolveParent i [c] =
    if (s.dinode i).type = T_DIR then some i else none := rfl

theorem resolveParent_cons (h : cs ≠ []) :
    s.resolveParent i (c :: cs) = (s.child i c).bind fun j => s.resolveParent j cs := by
  unfold resolveParent
  rw [if_neg (List.cons_ne_nil c cs), List.dropLast_cons_of_ne_nil h, resolve_cons, Option.bind_assoc]
  congr 1
  funext j
  rw [if_neg h]

end FsImage

/-! ## References and locks -/

namespace ISys

variable {s₀ s s' : ISys} {i j : Inum} {more : Inum → Nat} {lk : Option Inum} {dp : Dinode}

/-- One reference to `i`. -/
def one (i : Inum) : Inum → Nat := Pi.single i 1

/-- What separates the state `s` of a call from the state `s₀` in which it began: the call has `more`
references and the lock `lk`. An inode that `s₀` had no links and no references to may have been
freed. -/
structure Apart (s₀ s : ISys) (more : Inum → Nat) (lk : Option Inum) : Prop where
  kept : Kept s
  refs : ∀ j, (s.icache j).ref = (s₀.icache j).ref + more j
  locks : ∀ j, (s.icache j).locked = ((s₀.icache j).locked || decide (lk = some j))
  area : s.img.area = s₀.img.area
  disk : ∀ j : Inum, s.img.dinode j = s₀.img.dinode j ∨
    (s.img.dinode j).type = 0 ∧ (s₀.img.dinode j).nlink = 0 ∧ (s₀.icache j).ref = 0

theorem Apart.refl (h : Kept s) : Apart s s 0 none where
  kept := h
  refs _ := rfl
  locks j := by simp
  area := rfl
  disk _ := .inl rfl

/-- One entry of the cache changes, and nothing on the disk. -/
theorem Apart.setEntry {e : IEntry} {more' : Inum → Nat} {lk' : Option Inum}
    (h : Apart s₀ s more lk) (hkept : Kept (s.setEntry i e))
    (hmore : ∀ j, j ≠ i → more' j = more j) (hlk : ∀ j, j ≠ i → (lk' = some j ↔ lk = some j))
    (href : e.ref = (s₀.icache i).ref + more' i)
    (hlock : e.locked = ((s₀.icache i).locked || decide (lk' = some i))) :
    Apart s₀ (s.setEntry i e) more' lk' where
  kept := hkept
  refs j := by
    show (update s.icache i e j).ref = _
    by_cases hj : j = i
    · rw [hj, update_self, href]
    · rw [update_of_ne hj, h.refs, hmore j hj]
  locks j := by
    show (update s.icache i e j).locked = _
    by_cases hj : j = i
    · rw [hj, update_self, hlock]
    · rw [update_of_ne hj, h.locks, decide_eq_decide.mpr (hlk j hj)]
  area := h.area
  disk := h.disk

theorem one_self : one i i = 1 := Pi.single_eq_same i 1

theorem one_ne (hj : j ≠ i) : one i j = 0 := Pi.single_eq_of_ne hj 1

theorem Apart.iget (h : Apart s₀ s more lk) (hs : s.iget i = some s') :
    Apart s₀ s' (more + one i) lk := by
  have hkept := h.kept.iget hs
  have hmore : ∀ j, j ≠ i → (more + one i) j = more j := by
    intro j hj
    rw [Pi.add_apply, one_ne hj, Nat.add_zero]
  have hone : (more + one i) i = more i + 1 := by rw [Pi.add_apply, one_self]
  have hrefs := h.refs i
  unfold ISys.iget at hs
  split at hs
  · cases hs
    refine h.setEntry hkept hmore (fun _ _ => Iff.rfl) ?_ (h.locks i)
    show (s.icache i).ref + 1 = _
    omega
  · rename_i hzero
    obtain ⟨-, hs⟩ := Option.ite_none_right_eq_some.mp hs
    cases hs
    refine h.setEntry hkept hmore (fun _ _ => Iff.rfl) ?_ ?_
    · show 1 = _
      omega
    · rw [← h.locks i]
      -- an inode without references is not locked
      cases hl : (s.icache i).locked with
      | false => rfl
      | true => exact absurd (h.kept.locked i hl) hzero

/-- A call that has references to one inode uses one entry more. -/
theorem Apart.inUse_le (h : Apart s₀ s (one i) lk) : s.inUse ≤ s₀.inUse + 1 := by
  refine le_trans (Finset.card_le_card (t := insert i _) fun j hj => ?_) (Finset.card_insert_le i _)
  rw [Finset.mem_filter, h.refs j] at hj
  rw [Finset.mem_insert, Finset.mem_filter]
  by_cases hij : j = i
  · exact .inl hij
  · rw [one_ne hij] at hj
    exact .inr hj

theorem iget_returns (h : s.inUse < NINODE) : ∃ s', s.iget i = some s' := by
  unfold iget
  rw [if_pos h]
  split
  · exact ⟨_, rfl⟩
  · exact ⟨_, rfl⟩

theorem Kept.idup (h : Kept s) (href : 0 < (s.icache i).ref) : Kept (s.idup i) :=
  h.setEntry (fun ip _ => h.through i ip href) fun _ => Nat.succ_pos _

theorem Apart.idup (h : Apart s₀ s more lk) (href : 0 < (s.icache i).ref) :
    Apart s₀ (s.idup i) (more + one i) lk := by
  refine h.setEntry (h.kept.idup href) ?_ (fun _ _ => Iff.rfl) ?_ (h.locks i)
  · intro j hj
    rw [Pi.add_apply, one_ne hj, Nat.add_zero]
  · show (s.icache i).ref + 1 = _
    rw [Pi.add_apply, one_self, h.refs i, Nat.add_assoc]

/-- The inode on disk, unless it has been freed. -/
theorem Apart.dinode (h : Apart s₀ s more lk) (htype : (s.img.dinode i).type ≠ 0) :
    s.img.dinode i = s₀.img.dinode i :=
  (h.disk i).resolve_right fun hfreed => htype hfreed.1

/-- The inode is locked, and is the one that the call began with. -/
theorem Apart.ilock (h : Apart s₀ s more none) (hs : s.ilock i = some s') :
    Apart s₀ s' more (some i) ∧ (s₀.icache i).locked = false ∧
      s'.held i = some (s₀.img.dinode i) ∧ s'.img.dinode i = s₀.img.dinode i := by
  have hkept := h.kept.ilock hs
  unfold ISys.ilock at hs
  split at hs
  · rename_i hok
    have hunlocked : (s₀.icache i).locked = false := by
      have := h.locks i
      rw [hok.2] at this
      cases hl : (s₀.icache i).locked with
      | false => rfl
      | true =>
        rw [hl] at this
        cases this
    have hlk : ∀ j, j ≠ i → (some i = some j ↔ none = some j) := by
      intro j hj
      exact ⟨fun he => absurd (Option.some.inj he).symm hj, nofun⟩
    have hentry : ∀ dp, Kept (s.setEntry i { s.icache i with locked := true, copy := some dp }) →
        Apart s₀ (s.setEntry i { s.icache i with locked := true, copy := some dp }) more (some i) := by
      intro dp hk
      exact h.setEntry hk (fun _ _ => rfl) hlk (h.refs i) (by simp)
    have hheld : ∀ dp, (s.setEntry i { s.icache i with locked := true, copy := some dp }).held i =
        some dp := by
      intro dp
      unfold held
      rw [icache_setEntry_self, if_pos rfl]
    cases hc : (s.icache i).copy with
    | some dp =>
      rw [hc] at hs
      have heq : s' = s.setEntry i { s.icache i with locked := true, copy := some dp } := by
        rw [← Option.some.inj hs, ← hc]
      obtain ⟨hdp, htype⟩ := h.kept.through i dp hok.1 hc
      have hsame := h.dinode (by rw [hdp]; exact htype)
      rw [heq] at hkept ⊢
      refine ⟨hentry dp hkept, hunlocked, ?_, hsame⟩
      rw [hheld, ← hdp, hsame]
    | none =>
      rw [hc] at hs
      dsimp only at hs
      split at hs
      · cases hs
      · rename_i htype
        have heq := (Option.some.inj hs).symm
        have hsame := h.dinode htype
        rw [heq] at hkept ⊢
        refine ⟨hentry _ hkept, hunlocked, ?_, hsame⟩
        rw [hheld, hsame]
  · cases hs

theorem Apart.iunlock (h : Apart s₀ s more (some i)) (hl : (s₀.icache i).locked = false)
    (hs : s.iunlock i = some s') : Apart s₀ s' more none := by
  have hkept : Kept s' := h.kept.step hs
  obtain ⟨dp, -, heq⟩ := Option.map_eq_some_iff.mp hs
  rw [← heq] at hkept ⊢
  refine h.setEntry hkept (fun _ _ => rfl) ?_ (h.refs i) ?_
  · intro j hj
    exact ⟨nofun, fun he => absurd (Option.some.inj he).symm hj⟩
  · rw [hl]
    rfl

/-- A reference is dropped. If it was the last one, and the inode has no links, it is freed. -/
theorem Apart.iput (h : Apart s₀ s (more + one i) none) (hs : s.iput i = some s') :
    Apart s₀ s' more none := by
  have hmore : ∀ j, j ≠ i → more j = (more + one i) j := by
    intro j hj
    rw [Pi.add_apply, one_ne hj, Nat.add_zero]
  have hrefs : (s.icache i).ref = (s₀.icache i).ref + (more i + 1) := by
    have := h.refs i
    rw [Pi.add_apply, one_self] at this
    exact this
  have hkept : Kept s' := h.kept.step (a := .iput i) hs
  have hdrop : Kept (s.setEntry i { s.icache i with ref := (s.icache i).ref - 1 }) →
      Apart s₀ (s.setEntry i { s.icache i with ref := (s.icache i).ref - 1 }) more none := by
    intro hk
    refine h.setEntry hk hmore (fun _ _ => Iff.rfl) ?_ (h.locks i)
    show (s.icache i).ref - 1 = _
    omega
  unfold ISys.iput at hs
  split at hs
  · rename_i hok
    cases hc : (s.icache i).copy with
    | none =>
      rw [hc] at hs
      have heq := (Option.some.inj hs).symm
      rw [heq] at hkept ⊢
      exact hdrop hkept
    | some ip =>
      rw [hc] at hs
      dsimp only at hs
      split at hs
      · rename_i hlast
        obtain ⟨hip, htype⟩ := h.kept.through i ip hok.1 hc
        have hsame := h.dinode (by rw [hip]; exact htype)
        obtain ⟨img, ip', htr, -, hothers, htype', harea⟩ :=
          FsImage.itrunc_free h.kept.consistent hip htype
        rw [htr] at hs
        have heq := (Option.some.inj hs).symm
        rw [heq] at hkept ⊢
        refine ⟨hkept, fun j => ?_, fun j => ?_, harea.trans h.area, fun j => ?_⟩
        · show (update s.icache i _ j).ref = _
          by_cases hj : j = i
          · rw [hj, update_self]
            show 0 = _
            omega
          · rw [update_of_ne hj, h.refs, hmore j hj]
        · show (update s.icache i _ j).locked = _
          by_cases hj : j = i
          · rw [hj, update_self]
            exact h.locks i
          · rw [update_of_ne hj]
            exact h.locks j
        · by_cases hj : j = i
          · right
            rw [hj, ← hsame, hip]
            exact ⟨htype', hlast.1, by omega⟩
          · show (img.iupdate i { ip' with type := 0 }).dinode j = _ ∨
              ((img.iupdate i { ip' with type := 0 }).dinode j).type = 0 ∧ _
            rw [hothers j hj]
            exact h.disk j
      · have heq := (Option.some.inj hs).symm
        rw [heq] at hkept ⊢
        exact hdrop hkept
  · cases hs

theorem Apart.iunlockput (h : Apart s₀ s (more + one i) (some i))
    (hl : (s₀.icache i).locked = false) (hs : s.iunlockput i = some s') :
    Apart s₀ s' more none := by
  obtain ⟨s₁, hunlock, hput⟩ := Option.bind_eq_some_iff.mp hs
  exact (h.iunlock hl hunlock).iput hput

/-- The lookup under the lock: the directory is as it was when the call began. -/
theorem Apart.dirlookup {next : Option Inum} (h₀ : Kept s₀) (h : Apart s₀ s more (some i))
    (hheld : s.held i = some (s₀.img.dinode i)) (hdp : s.img.dinode i = s₀.img.dinode i)
    (hname : nameField name = nameField c) (hs : s.dirlookup i name = some (next, s')) :
    next = s₀.img.child i c ∧ Apart s₀ s' (more + next.elim 0 one) (some i) := by
  obtain ⟨dp, hh, hs⟩ := Option.bind_eq_some_iff.mp hs
  obtain ⟨⟨found, img, dp'⟩, hlook, hs⟩ := Option.bind_eq_some_iff.mp hs
  obtain rfl : s₀.img.dinode i = dp := Option.some.inj (hheld.symm.trans hh)
  obtain ⟨-, rfl, rfl⟩ := FsImage.dirlookup_same h.kept.consistent hdp hlook
  have hget : s₀.img.dirGet (s₀.img.dinode i) c = some found := by
    rw [← FsImage.dirGet_congr h₀.consistent h.kept.consistent h.area rfl hdp hname]
    unfold FsImage.dirGet
    rw [hlook]
    rfl
  have hstore : Apart s₀ (s.store i s.img (s₀.img.dinode i)) more (some i) :=
    h.setEntry (h.kept.store hheld (.refl h.kept.consistent hdp)) (fun _ _ => rfl)
      (fun _ _ => Iff.rfl) (h.refs i) (h.locks i)
  have hchild : s₀.img.child i c =
      found.bind fun x => if h : x.1 < NINODES then some ⟨x.1, h⟩ else none := by
    unfold FsImage.child
    rw [hget]
    rfl
  rw [hchild]
  cases found with
  | none =>
    cases hs
    exact ⟨rfl, hstore⟩
  | some x =>
    obtain ⟨inum, off⟩ := x
    dsimp only at hs
    split at hs
    · rename_i hlt
      obtain ⟨s₁, hget, heq⟩ := Option.map_eq_some_iff.mp hs
      cases heq
      refine ⟨?_, hstore.iget hget⟩
      rw [Option.bind_some, dif_pos hlt]
    · cases hs

/-! ## The loop -/

/-- What `namex` returns, from inode `i` on. -/
def target (img : FsImage) (parent : Bool) (i : Inum) (cs : List (List Byte)) : Option Inum :=
  if parent then img.resolveParent i cs else img.resolve i cs

theorem target_eq_none {img : FsImage} {parent : Bool} (h : (img.dinode i).type ≠ T_DIR) :
    target img parent i (c :: cs) = none := by
  unfold target
  cases parent with
  | false =>
    show img.resolve i (c :: cs) = none
    rw [FsImage.resolve_cons, FsImage.child_eq_none h]
    rfl
  | true =>
    show img.resolveParent i (c :: cs) = none
    cases cs with
    | nil => rw [FsImage.resolveParent_single, if_neg h]
    | cons d cs =>
      rw [FsImage.resolveParent_cons (List.cons_ne_nil d cs), FsImage.child_eq_none h]
      rfl

theorem target_cons {img : FsImage} {parent : Bool} (h : ¬ (parent = true ∧ cs = [])) :
    target img parent i (c :: cs) = (img.child i c).bind fun j => target img parent j cs := by
  unfold target
  cases parent with
  | false => rfl
  | true => exact FsImage.resolveParent_cons fun hcs => h ⟨rfl, hcs⟩

/-- The loop holds one reference, to the inode it stands at, and gives it back or returns it. -/
theorem namexLoop_spec {parent : Bool} (h₀ : Kept s₀) : ∀ fuel {s : ISys} {i : Inum}
    {path name name' : List Byte} {r : Option Inum} {s' : ISys},
    Apart s₀ s (one i) none → namexLoop parent fuel s i path name = some (r, name', s') →
    r = target s₀.img parent i (components path) ∧ Apart s₀ s' (r.elim 0 one) none ∧
      (parent = true → r ≠ none →
        (components path).getLast?.map (List.take DIRSIZ) = some (bufName name')) := by
  intro fuel
  induction fuel with
  | zero =>
    intro s i path name name' r s' _ h
    cases h
  | succ fuel ih =>
    intro s i path name name' r s' hw h
    have hone : Apart s₀ s (0 + one i) none := by rwa [zero_add]
    unfold namexLoop at h
    cases hcs : components path with
    | nil =>
      rw [skipelem_none hcs] at h
      dsimp only at h
      split at h
      · rename_i hparent
        obtain ⟨s₁, hput, heq⟩ := Option.map_eq_some_iff.mp h
        cases heq
        refine ⟨?_, hone.iput hput, fun _ hr => absurd rfl hr⟩
        rw [hparent]
        rfl
      · rename_i hparent
        cases h
        refine ⟨?_, hw, fun hp => absurd hp hparent⟩
        rw [Bool.not_eq_true _ |>.mp hparent]
        rfl
    | cons c cs =>
      obtain ⟨rest, hskip, hrest, hlast, -, hc⟩ := skipelem_some hcs
      rw [hskip] at h
      obtain ⟨s₁, hlock, h⟩ := Option.bind_eq_some_iff.mp h
      obtain ⟨hw₁, hfree, hheld, hdp⟩ := hone.ilock hlock
      dsimp only at h
      rw [hheld] at h
      dsimp only [Option.bind_some] at h
      split at h
      · rename_i hdir
        obtain ⟨s₂, hput, heq⟩ := Option.map_eq_some_iff.mp h
        cases heq
        exact ⟨(target_eq_none hdir).symm, hw₁.iunlockput hfree hput, fun _ hr => absurd rfl hr⟩
      · rename_i hdir
        have hdir := not_not.mp hdir
        split at h
        · rename_i hstop
          obtain ⟨s₂, hunlock, heq⟩ := Option.map_eq_some_iff.mp h
          cases heq
          obtain rfl : cs = [] := hlast.mp hstop.2
          have hw₂ := hw₁.iunlock hfree hunlock
          rw [zero_add] at hw₂
          refine ⟨?_, hw₂, fun _ _ => ?_⟩
          · rw [hstop.1]
            exact (if_pos hdir).symm
          · rw [bufName_nameBuf hc]
            rfl
        · rename_i hgo
          rw [hlast] at hgo
          obtain ⟨⟨next, s₂⟩, hlook, h⟩ := Option.bind_eq_some_iff.mp h
          obtain ⟨hnext, hw₂⟩ := hw₁.dirlookup h₀ hheld hdp nameField_nameBuf hlook
          rw [target_cons hgo, ← hnext]
          cases next with
          | none =>
            obtain ⟨s₃, hput, heq⟩ := Option.map_eq_some_iff.mp h
            cases heq
            exact ⟨rfl, hw₂.iunlockput hfree hput, fun _ hr => absurd rfl hr⟩
          | some j =>
            obtain ⟨s₃, hput, h⟩ := Option.bind_eq_some_iff.mp h
            have hw₃ : Apart s₀ s₃ (one j) none := by
              refine Apart.iunlockput (i := i) ?_ hfree hput
              rw [add_comm]
              rwa [zero_add] at hw₂
            obtain ⟨hr, hw', hname⟩ := ih hw₃ h
            rw [hrest] at hr hname
            refine ⟨hr, hw', fun hp hne => ?_⟩
            have hcs' : cs ≠ [] := fun he => hgo ⟨hp, he⟩
            rw [List.getLast?_cons_of_ne_nil hcs']
            exact hname hp hne

/-! ## Every walk ends -/

/-- The inodes form a tree that nobody works in: no inode is locked, and the entries of directories
name inodes that are in use and have links. The current directory may have lost its links. -/
structure Tree (s : ISys) (cwd : Inum) : Prop where
  unlocked : ∀ i, (s.icache i).locked = false
  root : (s.img.dinode rootInum).type ≠ 0 ∧ (s.img.dinode rootInum).nlink ≠ 0
  cwd : (s.img.dinode cwd).type ≠ 0
  whole : ∀ i : Inum, (s.img.dinode i).type = T_DIR → 16 ∣ (s.img.dinode i).size.toNat
  entries : ∀ (i : Inum) name x, s.img.dirGet (s.img.dinode i) name = some (some x) →
    ∃ h : x.1 < NINODES, (s.img.dinode (⟨x.1, h⟩ : Inum)).type ≠ 0 ∧
      (s.img.dinode (⟨x.1, h⟩ : Inum)).nlink ≠ 0

/-- The inode is in use, and no walk frees it. -/
def Stays (s : ISys) (i : Inum) : Prop :=
  (s.img.dinode i).type ≠ 0 ∧ ((s.img.dinode i).nlink ≠ 0 ∨ 0 < (s.icache i).ref)

theorem Apart.dinode_stays (h : Apart s₀ s more lk) (hi : Stays s₀ i) :
    s.img.dinode i = s₀.img.dinode i := by
  refine (h.disk i).resolve_right ?_
  rintro ⟨-, hlinks, href⟩
  rcases hi.2 with hne | hpos
  · exact hne hlinks
  · omega

theorem Apart.ilock_returns (h : Apart s₀ s more none) (hmore : 0 < more i)
    (hl : (s₀.icache i).locked = false) (hi : Stays s₀ i) : ∃ s', s.ilock i = some s' := by
  have href : 0 < (s.icache i).ref := by
    rw [h.refs i]
    omega
  have hlock : (s.icache i).locked = false := by
    rw [h.locks i, hl]
    rfl
  unfold ISys.ilock
  rw [if_pos ⟨href, hlock⟩]
  cases (s.icache i).copy with
  | some dp => exact ⟨_, rfl⟩
  | none =>
    dsimp only
    rw [h.dinode_stays hi, if_neg hi.1]
    exact ⟨_, rfl⟩

theorem Apart.iput_returns (h : Apart s₀ s more none) (hmore : 0 < more i)
    (hl : (s₀.icache i).locked = false) : ∃ s', s.iput i = some s' := by
  have href : 0 < (s.icache i).ref := by
    rw [h.refs i]
    omega
  have hlock : (s.icache i).locked = false := by
    rw [h.locks i, hl]
    rfl
  obtain ⟨s', hs, -⟩ := h.kept.iput_returns href hlock
  exact ⟨s', hs⟩

theorem iunlock_returns (hheld : s.held i = some dp) : ∃ s', s.iunlock i = some s' := by
  show ∃ s', (s.held i).map _ = some s'
  rw [hheld]
  exact ⟨_, rfl⟩

theorem Apart.iunlockput_returns (h : Apart s₀ s more (some i)) (hmore : 0 < more i)
    (hl : (s₀.icache i).locked = false) (hheld : s.held i = some dp) :
    ∃ s', s.iunlockput i = some s' := by
  obtain ⟨s₁, hunlock⟩ := iunlock_returns hheld
  obtain ⟨s', hput⟩ := (h.iunlock hl hunlock).iput_returns hmore hl
  refine ⟨s', ?_⟩
  unfold ISys.iunlockput
  rw [hunlock]
  exact hput

theorem held_iget (hheld : s.held i = some dp) (hk : Kept s) (hs : s.iget j = some s') :
    s'.held i = some dp := by
  have hset : ∀ e, (j = i → e = { s.icache i with ref := (s.icache i).ref + 1 }) →
      (s.setEntry j e).held i = some dp := by
    intro e he
    have hentry : (s.setEntry j e).icache i = if i = j then e else s.icache i := update_apply ..
    unfold held at hheld ⊢
    rw [hentry]
    split
    · rename_i hij
      rw [he hij.symm]
      exact hheld
    · exact hheld
  unfold iget at hs
  split at hs
  · cases hs
    exact hset _ fun hj => by rw [hj]
  · rename_i hzero
    obtain ⟨-, hs⟩ := Option.ite_none_right_eq_some.mp hs
    cases hs
    exact hset _ fun hj => absurd (hj ▸ (hk.held hheld).1) hzero

/-- The lookup under the lock returns, and the directory stays locked. -/
theorem Apart.dirlookup_returns {cwd : Inum} (h₀ : Kept s₀) (ht : Tree s₀ cwd)
    (hroom : s₀.inUse + 2 ≤ NINODE) (h : Apart s₀ s (one i) (some i))
    (hheld : s.held i = some (s₀.img.dinode i))
    (hdp : s.img.dinode i = s₀.img.dinode i) (hdir : (s₀.img.dinode i).type = T_DIR)
    (name : List Byte) : ∃ next s', s.dirlookup i name = some (next, s') ∧
      s'.held i = some (s₀.img.dinode i) ∧ ∀ j, next = some j → Stays s₀ j := by
  obtain ⟨found, hlook⟩ :=
    FsImage.dirlookup_returns h.kept.consistent hdp hdir (ht.whole i hdir) name
  have hget : s₀.img.dirGet (s₀.img.dinode i) name = some found := by
    rw [← FsImage.dirGet_congr h₀.consistent h.kept.consistent h.area rfl hdp rfl]
    unfold FsImage.dirGet
    rw [hlook]
    rfl
  unfold ISys.dirlookup
  rw [hheld, Option.bind_some, hlook, Option.bind_some]
  dsimp only
  rw [store_held hheld]
  cases found with
  | none => exact ⟨none, s, rfl, hheld, nofun⟩
  | some x =>
    obtain ⟨hlt, htype, hlinks⟩ := ht.entries i name x hget
    have hless := h.inUse_le
    obtain ⟨s', hs'⟩ := iget_returns (i := ⟨x.1, hlt⟩) (by omega : s.inUse < NINODE)
    dsimp only
    rw [dif_pos hlt, hs']
    refine ⟨_, _, rfl, held_iget hheld h.kept hs', ?_⟩
    rintro j ⟨⟩
    exact ⟨htype, .inl hlinks⟩

theorem namexLoop_returns {parent : Bool} {cwd : Inum} (h₀ : Kept s₀) (ht : Tree s₀ cwd)
    (hroom : s₀.inUse + 2 ≤ NINODE) : ∀ fuel {s : ISys} {i : Inum} {path name : List Byte}, path.length < fuel →
    Apart s₀ s (one i) none → Stays s₀ i → ∃ r, namexLoop parent fuel s i path name = some r := by
  intro fuel
  induction fuel with
  | zero =>
    intro s i path name hfuel
    exact absurd hfuel (Nat.not_lt_zero _)
  | succ fuel ih =>
    intro s i path name hfuel hw hi
    have hpos : 0 < one i i := by
      rw [one_self]
      decide
    have hl := ht.unlocked i
    unfold namexLoop
    cases hcs : components path with
    | nil =>
      rw [skipelem_none hcs]
      dsimp only
      split
      · obtain ⟨s₁, hput⟩ := hw.iput_returns hpos hl
        rw [hput]
        exact ⟨_, rfl⟩
      · exact ⟨_, rfl⟩
    | cons c cs =>
      obtain ⟨rest, hskip, hrest, -, hlen, -⟩ := skipelem_some hcs
      rw [hskip]
      dsimp only
      obtain ⟨s₁, hlock⟩ := hw.ilock_returns hpos hl hi
      obtain ⟨hw₁, -, hheld, hdp⟩ := hw.ilock hlock
      rw [hlock, Option.bind_some, hheld, Option.bind_some]
      split
      · obtain ⟨s₂, hput⟩ := hw₁.iunlockput_returns hpos hl hheld
        rw [hput]
        exact ⟨_, rfl⟩
      · rename_i hdir
        split
        · obtain ⟨s₂, hunlock⟩ := iunlock_returns hheld
          rw [hunlock]
          exact ⟨_, rfl⟩
        · obtain ⟨next, s₂, hlook, hheld₂, hstays⟩ :=
            hw₁.dirlookup_returns h₀ ht hroom hheld hdp (not_not.mp hdir) (nameBuf c name)
          obtain ⟨-, hw₂⟩ := hw₁.dirlookup h₀ hheld hdp nameField_nameBuf hlook
          have hpos₂ : 0 < (one i + next.elim 0 one) i := by
            rw [Pi.add_apply]
            omega
          obtain ⟨s₃, hput⟩ := hw₂.iunlockput_returns hpos₂ hl hheld₂
          rw [hlook, Option.bind_some]
          cases next with
          | none =>
            dsimp only
            rw [hput]
            exact ⟨_, rfl⟩
          | some j =>
            dsimp only
            rw [hput, Option.bind_some]
            refine ih (by omega) ?_ (hstays j rfl)
            refine Apart.iunlockput (i := i) ?_ hl hput
            rw [add_comm]
            exact hw₂

/-! ## namei and nameiparent -/

/-- Where a path starts. -/
def start (cwd : Inum) (path : List Byte) : Inum :=
  if path.headD 0 = slash then rootInum else cwd

/-- The references change by one for the inode that is returned, and no lock stays. -/
def Balanced (s s' : ISys) (r : Option Inum) : Prop :=
  ∀ j, (s'.icache j).ref = (s.icache j).ref + (if r = some j then 1 else 0) ∧
    (s'.icache j).locked = (s.icache j).locked

theorem Apart.balanced {r : Option Inum} (h : Apart s₀ s (r.elim 0 one) none) :
    Balanced s₀ s r := by
  intro j
  have hcount : (r.elim 0 one : Inum → Nat) j = if r = some j then 1 else 0 := by
    cases r with
    | none => rfl
    | some i =>
      by_cases hj : j = i
      · subst hj
        rw [if_pos rfl]
        exact one_self
      · rw [if_neg fun he => hj (Option.some.inj he).symm]
        exact one_ne hj
  refine ⟨?_, ?_⟩
  · rw [h.refs j, hcount]
  · rw [h.locks j]
    simp

/-- The loop begins with a reference to the inode where the path starts. -/
theorem namex_eq {cwd : Inum} (h : Kept s) (hcwd : 0 < (s.icache cwd).ref) (parent : Bool) : (∃ s₁, Apart s s₁ (one (start cwd path)) none ∧
      s.namex cwd path parent name =
        namexLoop parent (path.length + 1) s₁ (start cwd path) path name) ∨
      s.namex cwd path parent name = none ∧ NINODE ≤ s.inUse := by
  unfold namex start
  split
  · cases hs : s.iget rootInum with
    | some s₁ =>
      have hw := (Apart.refl h).iget hs
      rw [zero_add] at hw
      exact .inl ⟨s₁, hw, rfl⟩
    | none =>
      refine .inr ⟨rfl, Nat.le_of_not_lt fun hlt => ?_⟩
      obtain ⟨s₁, hs₁⟩ := iget_returns (i := rootInum) hlt
      cases hs.symm.trans hs₁
  · have hw := (Apart.refl h).idup hcwd
    rw [zero_add] at hw
    exact .inl ⟨_, hw, rfl⟩

/-- **Paths.** Iterating `skipelem` yields the components of a path, each cut to `DIRSIZ` bytes, and
leaves nothing exactly at the last one. `namei` returns what up the components one after the
other leads to, from the root or the current directory; `nameiparent` stops before the last
component, which is in the buffer then. When they return, the inode that is returned has one more
reference and the others have as many as before, and no lock is left. In a tree in which no inode is
locked both return, if the inode cache has room for two more. -/
theorem paths_resolve (h : Kept s) (cwd : Inum) (hcwd : 0 < (s.icache cwd).ref)
    (path name : List Byte) :
    elements (path.length + 1) path name = some (marked (components path)) ∧
    (∀ r s', s.namei cwd path name = some (r, s') →
      r = s.img.resolve (start cwd path) (components path) ∧ Balanced s s' r) ∧
    (∀ r name' s', s.nameiparent cwd path name = some (r, name', s') →
      r = s.img.resolveParent (start cwd path) (components path) ∧ Balanced s s' r ∧
        (r ≠ none → (components path).getLast?.map (List.take DIRSIZ) = some (bufName name'))) ∧
    (Tree s cwd → s.inUse + 2 ≤ NINODE → (∃ r, s.namei cwd path name = some r) ∧
      ∃ r, s.nameiparent cwd path name = some r) := by
  have hspec : ∀ {parent r name' s'}, s.namex cwd path parent name = some (r, name', s') →
      r = target s.img parent (start cwd path) (components path) ∧ Balanced s s' r ∧
        (parent = true → r ≠ none →
          (components path).getLast?.map (List.take DIRSIZ) = some (bufName name')) := by
    intro parent r name' s' hs
    rcases namex_eq h hcwd parent with ⟨s₁, hw, heq⟩ | ⟨hno, -⟩
    · obtain ⟨hr, hw', hname⟩ := namexLoop_spec h _ hw (heq.symm.trans hs)
      exact ⟨hr, hw'.balanced, hname⟩
    · cases hno.symm.trans hs
  refine ⟨elements_spec _ (Nat.lt_succ_self _), ?_, ?_, ?_⟩
  · intro r s' hs
    obtain ⟨⟨r', name', s₂⟩, hnamex, heq⟩ := Option.map_eq_some_iff.mp hs
    cases heq
    obtain ⟨hr, hbal, -⟩ := hspec hnamex
    exact ⟨hr, hbal⟩
  · intro r name' s' hs
    obtain ⟨hr, hbal, hname⟩ := hspec hs
    exact ⟨hr, hbal, hname rfl⟩
  · intro ht hroom
    have hstays : Stays s (start cwd path) := by
      unfold start
      split
      · exact ⟨ht.root.1, .inl ht.root.2⟩
      · exact ⟨ht.cwd, .inr hcwd⟩
    have hreturns : ∀ parent, ∃ r, s.namex cwd path parent name = some r := by
      intro parent
      rcases namex_eq h hcwd parent with ⟨s₁, hw, heq⟩ | ⟨-, hfull⟩
      · rw [heq]
        exact namexLoop_returns h ht hroom _ (Nat.lt_succ_self _) hw hstays
      · omega
    refine ⟨?_, hreturns true⟩
    obtain ⟨r, hr⟩ := hreturns false
    unfold namei
    rw [hr]
    exact ⟨_, rfl⟩

/-- The entries of a directory in use name inodes in use with links. -/
def EntriesName (img : FsImage) (i : Inum) : Prop :=
  ∀ k < (img.dinode i).size.toNat / 16, direntInum (img.onDisk.dirent i k) = 0 ∨
    ∃ j : Inum, j.val = direntInum (img.onDisk.dirent i k) ∧ (img.dinode j).type ≠ 0 ∧
      (img.dinode j).nlink ≠ 0

instance (img : FsImage) (i : Inum) : Decidable (EntriesName img i) := Nat.decidableBallLT _ _

theorem EntriesName.lookup {img : FsImage} {x : Nat × Nat} (h : EntriesName img i)
    (hV : img.onDisk.Consistent) (hx : img.dirGet (img.dinode i) name = some (some x)) :
    ∃ h : x.1 < NINODES, (img.dinode (⟨x.1, h⟩ : Inum)).type ≠ 0 ∧
      (img.dinode (⟨x.1, h⟩ : Inum)).nlink ≠ 0 := by
  by_cases hdir : (img.dinode i).type = T_DIR
  · unfold FsImage.dirGet at hx
    have hcur : img.onDisk.cur i = img.dinode i := rfl
    rw [FsImage.dirlookup_eq hV rfl hcur hdir] at hx
    split at hx
    · rename_i a hf
      cases hx
      have hmem := List.mem_range'_1.mp (List.mem_of_find?_eq_some hf)
      have htest := List.find?_some hf
      rw [Bool.and_eq_true] at htest
      rcases h a (by omega) with h0 | ⟨j, hj, hok⟩
      · exact absurd h0 (bne_iff_ne.mp htest.1)
      · exact ⟨hj ▸ j.isLt, by simpa only [← hj] using hok⟩
    · split at hx
      · cases hx
      · cases hx
  · unfold FsImage.dirGet FsImage.dirlookup at hx
    rw [if_pos hdir] at hx
    cases hx

/-- From an empty disk: the root directory, the directory `/a` and the file `/a/b` are made, and a
process is in the root directory. -/
def treeRun : List IAct :=
  let root : Inum := rootInum
  let a : Inum := 2
  let b : Inum := 3
  [.ialloc T_DIR, .ilock root, .relink root 0 0 1, .ialloc T_DIR, .ilock a, .relink a 0 0 1,
    .ialloc T_FILE, .ilock b, .relink b 0 0 1, .iunlock b, .iput b, .dirlink a [0x62] 3, .iunlock a,
    .iput a, .dirlink root [0x61] 2, .iunlock root]

/-- `namei("/a/b")` returns the file with a reference. -/
theorem paths_resolve_two : ∃ s s', Kept s ∧ Tree s rootInum ∧
    s.namei rootInum [0x2f, 0x61, 0x2f, 0x62] (List.replicate DIRSIZ 0) =
      some (some 3, s') ∧ (s'.icache 3).ref = 1 := by
  have hrun : ∃ s, Runs FsImage.blank s ∧ ((s.inUse + 2 ≤ NINODE ∧ 0 < (s.icache rootInum).ref) ∧
      (s.icache 3).ref = 0 ∧ ∀ i, (s.icache i).locked = false) ∧
      ((s.img.dinode rootInum).type ≠ 0 ∧ (s.img.dinode rootInum).nlink ≠ 0) ∧
      (∀ i : Inum, 16 ∣ (s.img.dinode i).size.toNat ∧ EntriesName s.img i) ∧
      s.img.resolve rootInum [[0x61], [0x62]] = some 3 :=
    exists_reaches treeRun (fun s : ISys => ((s.inUse + 2 ≤ NINODE ∧ 0 < (s.icache rootInum).ref) ∧
      (s.icache 3).ref = 0 ∧ ∀ i, (s.icache i).locked = false) ∧
      ((s.img.dinode rootInum).type ≠ 0 ∧ (s.img.dinode rootInum).nlink ≠ 0) ∧
      (∀ i : Inum, 16 ∣ (s.img.dinode i).size.toNat ∧ EntriesName s.img i) ∧
      s.img.resolve rootInum [[0x61], [0x62]] = some 3) (by decide +kernel)
  obtain ⟨s, hs, ⟨⟨hroom, hcwd⟩, href, hlocks⟩, hroot, hent, hres⟩ := hrun
  have hk := Runs.kept blank_onDisk hs
  have ht : Tree s rootInum := ⟨hlocks, hroot, hroot.1, fun i _ => (hent i).1,
    fun i _ _ hx => (hent i).2.lookup hk.consistent hx⟩
  obtain ⟨-, hnamei, -, hreturns⟩ := paths_resolve hk rootInum hcwd [0x2f, 0x61, 0x2f, 0x62]
    (List.replicate DIRSIZ 0)
  obtain ⟨⟨⟨r, s'⟩, hs'⟩, -⟩ := hreturns ht hroom
  obtain ⟨hr, hbal⟩ := hnamei r s' hs'
  have hcomp : components [0x2f, 0x61, 0x2f, 0x62] = [[0x61], [0x62]] := by decide
  rw [hcomp] at hr
  obtain rfl := hr.trans hres
  refine ⟨s, s', hk, ht, hs', ?_⟩
  rw [(hbal 3).1, href]
  rfl

end ISys

end Xv6
