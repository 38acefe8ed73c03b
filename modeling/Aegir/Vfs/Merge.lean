/-
  A union over what is on its members' volumes (`main.cc`, `union_read` to `union_remove`).
-/
import Aegir.Vfs.Union
import Aegir.Vfs.Contents

namespace Aegir.Vfs

open Aegir.Fs (kSlash components)
open Aegir.Bfs (Key)

def kKindFile : ℕ := 1
def kKindDir : ℕ := 2

def kReadMax : ℕ := 117 * 8

/-! ## What volumes answer -/

def Node.kind (n : Node) : ℕ := if n.isDir then kKindDir else kKindFile

def Node.size (n : Node) : ℕ := if n.isDir then 0 else n.bytes.length

namespace Contents

def answerStat (c : Contents) (path : List UInt8) : Answer :=
  match (c.walk path).bind c.node with
  | none => .nothing
  | some n => ⟨[n.kind, n.size, n.mtime, n.inode], []⟩

def entry (c : Contents) (place : List Key) (name : Key) : Answer :=
  match c.node (place ++ [name]) with
  | none => .nothing
  | some n => ⟨[n.size, n.kind, n.mtime], name⟩

def answerList (c : Contents) (path : List UInt8) (index : ℕ) : Answer :=
  match c.walk path with
  | none => .nothing
  | some place =>
    if c.isDir place = false then .nothing
    else match (c.names place)[index]? with
    | none => .nothing
    | some name => c.entry place name

def answerRead (c : Contents) (path : List UInt8) (offset max : ℕ) : Answer :=
  match (c.walk path).bind c.node with
  | none => .nothing
  | some n =>
    if n.isDir ∨ offset > n.bytes.length then .nothing
    else
      let got := min (min max kReadMax) (n.bytes.length - offset)
      ⟨[got, if offset + got ≥ n.bytes.length then 1 else 0], (n.bytes.drop offset).take got⟩

end Contents

/-- Volumes that answer from what is on them, and as they like to the calls that change it. -/
def served (disk : Volume → Contents) (changes : Volume → ℕ → Request → Answer) (turns : ℕ) : Ports where
  ask volume badge
    | .stat path => (disk volume).answerStat path
    | .list path index => (disk volume).answerList path index
    | .read path offset max => (disk volume).answerRead path offset max
    | request => changes volume badge request
  turns := turns

/-! ## One directory -/

def Lists (ports : Ports) (badge : ℕ) (path : List UInt8) (m : Member) (a : Answer) : Prop :=
  a ≠ .nothing ∧ ∃ i, memberListEntry ports badge path m i = a

/-- A name under a path. -/
def child (path : List UInt8) (name : Key) : List UInt8 :=
  if path = [] ∨ path.getLast? = some kSlash then path ++ name else path ++ kSlash :: name

/-- The union is one directory at a path. -/
structure OneDirectory (ports : Ports) (binding : Binding) (badge : ℕ) (path : List UInt8) : Prop where
  /-- The entries from index zero on are those of the first members that list their names,
      each name once. -/
  listing : ∃ entries : List Answer,
    (∀ i, unionList ports binding badge path i = entries[i]?.getD .nothing) ∧
    (entries.map Answer.text).Nodup ∧
    ∀ a, a ∈ entries ↔ ∃ before m after, binding.members = before ++ m :: after ∧
      Lists ports badge path m a ∧
      ∀ p ∈ before, ∀ a', Lists ports badge path p a' → a'.text ≠ a.text
  /-- A name is listed just if a stat finds it. -/
  found : ∀ name, IsName name →
    ((∃ i, unionList ports binding badge path i ≠ .nothing ∧
      (unionList ports binding badge path i).text = name) ↔
      unionStat ports binding badge (child path name) ≠ .nothing)
  /-- Calls act on the first member that has the path. -/
  stats : unionStat ports binding badge path =
    ((binding.members.find? (memberHas ports badge path)).map
      (memberPathCall ports badge · path 0 .stat)).getD .nothing
  reads : ∀ offset max, unionRead ports binding badge path offset max =
    ((binding.members.find? (memberHas ports badge path)).map
      (memberPathCall ports badge · path 2 (.read · offset max))).getD .nothing
  removes : unionRemove ports binding badge path =
    ((binding.members.find? (memberHas ports badge path)).map
      (memberPathCall ports badge · path 0 .remove)).getD .nothing

/-! ## When it is one -/

section
variable (disk : Volume → Contents) (path : List UInt8)

/-- Where a path that a member is called with leads, if the call has room for `extra` words. -/
def reached (extra : ℕ) (m : Member) : Option (List Key) :=
  (memberComposedPath m path).bind fun composed =>
    if packedWords composed + extra > kMaxWords then none else (disk m.volume).walk composed

def listing (m : Member) : List Answer :=
  match reached disk path 1 m with
  | none => []
  | some place => ((disk m.volume).names place).map ((disk m.volume).entry place)

def fileAt (m : Member) : Option (List UInt8) :=
  (reached disk path 2 m).bind fun place =>
    ((disk m.volume).node place).bind fun n => if n.isDir then none else some n.bytes

def Short (members : List Member) : Prop :=
  ∀ m ∈ members, ∀ a ∈ listing disk path m, a.text.length ≤ kNameMax

/-- A name that is the same as one before it up to case is listed before it as it is. -/
def OneCase (members : List Member) : Prop :=
  ∀ before m after, members = before ++ m :: after → ∀ a ∈ listing disk path m, ∀ p ∈ before,
    ∀ a' ∈ listing disk path p, sameVolume a'.text a.text = true →
      ∃ q ∈ before, ∃ a'' ∈ listing disk path q, a''.text = a.text

/-- The first member that has the path reads a file no shorter than any other member's. -/
def NoLonger (members : List Member) : Prop :=
  ∀ first, members.find? (fun m => (reached disk path 0 m).isSome) = some first → ∀ m ∈ members,
    ∀ bytes, fileAt disk path m = some bytes →
      ∃ bytes', fileAt disk path first = some bytes' ∧ bytes.length ≤ bytes'.length

end

/-- A name can be put behind the path of a member: nothing ends in a slash there, and it fits. -/
structure Straight (path : List UInt8) (m : Member) : Prop where
  rest : m.rest.getLast? ≠ some kSlash
  base : m.volume.base.getLast? ≠ some kSlash
  fits : m.volume.base.length + m.rest.length + path.length + 258 ≤ kPathMax

/-! ## The merge -/

section
variable {entries : Member → List Answer} {turns : ℕ}

def answers (l : List Answer) (i : ℕ) : Answer := l[i]?.getD .nothing

def isShort (a : Answer) : Bool := decide (a.text.length ≤ kNameMax)

/-- No earlier member lists the name, up to case. -/
def isFresh (entries : Member → List Answer) (earlier : List Member) (a : Answer) : Bool :=
  !earlier.any fun p => (entries p).any (answerNameIs · a.text)

/-- The entries that `union_list` counts. -/
def merged (entries : Member → List Answer) : List Member → List Member → List Answer
  | _, [] => []
  | earlier, m :: ms =>
    ((entries m).takeWhile isShort).filter (isFresh entries earlier) ++
      merged entries (earlier ++ [m]) ms

theorem scanEarlier_eq {l : List Answer} (hl : ∀ a ∈ l, a ≠ .nothing) (name : List UInt8) {k : ℕ}
    (ht : l.length < k + turns) :
    scanEarlier (answers l) name turns k = (l.drop k).any (answerNameIs · name) := by
  induction turns generalizing k with
  | zero =>
    rw [List.drop_eq_nil_of_le (by omega)]
    rfl
  | succ turns ih =>
    unfold scanEarlier answers
    rcases Nat.lt_or_ge k l.length with hk | hk
    · have hne := hl l[k] (List.getElem_mem hk)
      rw [List.getElem?_eq_getElem hk, Option.getD_some, if_neg hne, List.drop_eq_getElem_cons hk,
        List.any_cons]
      cases answerNameIs l[k] name
      · exact ih (by omega)
      · rfl
    · rw [List.getElem?_eq_none hk, Option.getD_none, if_pos rfl, List.drop_eq_nil_of_le hk]
      rfl

theorem scanMember_eq {l : List Answer} (hl : ∀ a ∈ l, a ≠ .nothing) {shadowed : List UInt8 → Bool}
    {want j unique : ℕ} (ht : l.length < j + turns) (hu : unique ≤ want) :
    scanMember (answers l) shadowed want turns j unique =
      match (((l.drop j).takeWhile isShort).filter (!shadowed ·.text))[want - unique]? with
      | some a => .inl a
      | none => .inr (unique + (((l.drop j).takeWhile isShort).filter (!shadowed ·.text)).length) := by
  induction turns generalizing j unique with
  | zero =>
    rw [List.drop_eq_nil_of_le (by omega)]
    rfl
  | succ turns ih =>
    unfold scanMember answers
    rcases Nat.lt_or_ge j l.length with hj | hj
    · have hne := hl l[j] (List.getElem_mem hj)
      simp only [List.getElem?_eq_getElem hj, Option.getD_some, if_neg hne,
        List.drop_eq_getElem_cons hj, List.takeWhile_cons]
      by_cases hlong : l[j].text.length > kNameMax
      · have hs : isShort l[j] = false := by simpa [isShort] using hlong
        rw [if_pos hlong, if_neg (by simp [hs])]
        rfl
      · have hs : isShort l[j] = true := by simpa [isShort] using hlong
        rw [if_neg hlong, if_pos hs]
        by_cases hsh : shadowed l[j].text = true
        · rw [if_pos hsh, List.filter_cons_of_neg (by simp [hsh])]
          exact ih (by omega) hu
        · rw [if_neg hsh, List.filter_cons_of_pos (by simpa using hsh)]
          by_cases he : unique = want
          · rw [if_pos he, he, Nat.sub_self, List.getElem?_cons_zero]
          · -- the entry is one of those before the one that is wanted
            have hsub : want - unique = want - (unique + 1) + 1 := by omega
            rw [if_neg he, hsub, List.getElem?_cons_succ, List.length_cons]
            refine (ih (by omega) (by omega)).trans ?_
            rw [Nat.add_assoc unique 1, Nat.add_comm 1]
    · rw [List.getElem?_eq_none hj, Option.getD_none, if_pos rfl, List.drop_eq_nil_of_le hj]
      rfl

theorem scanMembers_eq {list : Member → ℕ → Answer} {earlier ms : List Member} {want unique : ℕ}
    (hlist : ∀ m ∈ earlier ++ ms, list m = answers (entries m))
    (hl : ∀ m ∈ earlier ++ ms, ∀ a ∈ entries m, a ≠ .nothing)
    (ht : ∀ m ∈ earlier ++ ms, (entries m).length < turns) (hu : unique ≤ want) :
    scanMembers list turns want earlier ms unique =
      (merged entries earlier ms)[want - unique]?.getD .nothing := by
  induction ms generalizing earlier unique with
  | nil => rfl
  | cons m ms ih =>
    have hm : m ∈ earlier ++ m :: ms := by simp
    have hassoc : earlier ++ [m] ++ ms = earlier ++ m :: ms := by simp
    have hfresh : (fun a : Answer => !(fun name => earlier.any fun p =>
        scanEarlier (list p) name turns 0) a.text) = isFresh entries earlier := by
      funext a
      have hscan : ∀ p ∈ earlier, scanEarlier (list p) a.text turns 0 =
          (entries p).any (answerNameIs · a.text) := by
        intro p hp
        have hmem : p ∈ earlier ++ m :: ms := List.mem_append_left _ hp
        rw [hlist p hmem, scanEarlier_eq (hl p hmem) _ (by have := ht p hmem; omega), List.drop_zero]
      simp only [isFresh]
      congr 1
      rw [Bool.eq_iff_iff, List.any_eq_true, List.any_eq_true]
      exact exists_congr fun p => and_congr_right fun hp => by rw [hscan p hp]
    unfold scanMembers merged
    rw [hlist m hm, scanMember_eq (hl m hm) (by have := ht m hm; omega) hu, hfresh, List.drop_zero]
    generalize ((entries m).takeWhile isShort).filter (isFresh entries earlier) = xs
    rcases hx : xs[want - unique]? with _ | a
    · have hlen : xs.length ≤ want - unique := List.getElem?_eq_none_iff.1 hx
      rw [List.getElem?_append_right hlen]
      refine (ih ?_ ?_ ?_ (by omega)).trans ?_
      · rwa [hassoc]
      · rwa [hassoc]
      · rwa [hassoc]
      · rw [show want - (unique + xs.length) = want - unique - xs.length by omega]
    · obtain ⟨hlt, -⟩ := List.getElem?_eq_some_iff.1 hx
      rw [List.getElem?_append_left hlt, hx]
      rfl

theorem mem_merged {earlier ms : List Member} {a : Answer} : a ∈ merged entries earlier ms ↔
    ∃ before m after, ms = before ++ m :: after ∧ a ∈ (entries m).takeWhile isShort ∧
      isFresh entries (earlier ++ before) a = true := by
  induction ms generalizing earlier with
  | nil => simp [merged]
  | cons m ms ih =>
    unfold merged
    rw [List.mem_append, List.mem_filter, ih]
    constructor
    · rintro (⟨ha, hf⟩ | ⟨before, m', after, rfl, ha, hf⟩)
      · exact ⟨[], m, ms, rfl, ha, by rwa [List.append_nil]⟩
      · exact ⟨m :: before, m', after, rfl, ha, by rwa [List.append_cons]⟩
    · rintro ⟨_ | ⟨b, before⟩, m', after, hms, ha, hf⟩
      · obtain ⟨rfl, rfl⟩ := List.cons.inj hms
        rw [List.append_nil] at hf
        exact .inl ⟨ha, hf⟩
      · obtain ⟨rfl, rfl⟩ := List.cons.inj hms
        rw [List.append_cons] at hf
        exact .inr ⟨before, m', after, rfl, ha, hf⟩

theorem isFresh_iff {earlier : List Member} {a : Answer} : isFresh entries earlier a = true ↔
    ∀ p ∈ earlier, ∀ a' ∈ entries p, answerNameIs a' a.text = false := by
  simp [isFresh]

theorem isShort_of_mem_takeWhile {l : List Answer} {a : Answer} (h : a ∈ l.takeWhile isShort) :
    a.text.length ≤ kNameMax := by
  have := List.mem_takeWhile_imp h
  simpa [isShort] using this

theorem answerNameIs_of_eq {a : Answer} {name : List UInt8} (h : a.text = name)
    (hs : name.length ≤ kNameMax) : answerNameIs a name = true := by
  subst h
  simp [answerNameIs, sameVolume, hs]

theorem nodup_merged {earlier ms : List Member} (h : ∀ m ∈ ms, ((entries m).map Answer.text).Nodup) :
    ((merged entries earlier ms).map Answer.text).Nodup := by
  induction ms generalizing earlier with
  | nil => exact List.nodup_nil
  | cons m ms ih =>
    unfold merged
    rw [List.map_append, List.nodup_append]
    have hsub : (((entries m).takeWhile isShort).filter (isFresh entries earlier)).Sublist (entries m) :=
      List.filter_sublist.trans (List.takeWhile_sublist _)
    refine ⟨(h m List.mem_cons_self).sublist (hsub.map _),
      ih fun m' hm' => h m' (List.mem_cons_of_mem _ hm'), ?_⟩
    -- a name of this member is not fresh for those after it
    intro x hx y hy hxy
    subst hxy
    obtain ⟨a, ha, rfl⟩ := List.mem_map.1 hx
    obtain ⟨b, hb, hba⟩ := List.mem_map.1 hy
    obtain ⟨before, m', after, -, -, hf⟩ := mem_merged.1 hb
    have hshort := isShort_of_mem_takeWhile (List.mem_of_mem_filter ha)
    have := isFresh_iff.1 hf m (by simp) a (hsub.subset ha)
    rw [hba, answerNameIs_of_eq rfl hshort] at this
    cases this

end

/-! ## The calls -/

section
variable {disk : Volume → Contents} {changes : Volume → ℕ → Request → Answer} {turns badge : ℕ}
variable {path : List UInt8} {m : Member}

theorem walk_node {c : Contents} {place : List Key} (h : c.walk path = some place) :
    ∃ n, c.node place = some n := by
  have hstep : ∀ p q : List Key, ∀ n, (∃ d, c.node p = some d) → c.step [] p n = some q →
      ∃ d, c.node q = some d := by
    intro p q n hp hq
    have habove : ∃ d, c.node (above [] p) = some d := by
      unfold above
      split
      · next hnil => rwa [← hnil]
      · next hne =>
        rcases List.eq_nil_or_concat p with rfl | ⟨front, x, rfl⟩
        · exact absurd rfl hne
        · obtain ⟨d, hd⟩ := hp
          rw [List.concat_eq_append] at hd
          obtain ⟨d', hd', -⟩ := c.within _ _ _ hd
          rw [List.concat_eq_append, List.dropLast_concat]
          exact ⟨d', hd'⟩
    unfold Contents.step at hq
    split at hq
    · exact Option.some.inj hq ▸ habove
    split at hq
    · cases hq
    split at hq
    · exact Option.some.inj hq ▸ hp
    split at hq
    · exact Option.some.inj hq ▸ habove
    split at hq
    · next hs =>
      obtain ⟨d, hd⟩ := Option.isSome_iff_exists.1 hs
      exact Option.some.inj hq ▸ ⟨d, hd⟩
    · cases hq
  have hrun : ∀ (cs : List Key) (p : List Key), (∃ d, c.node p = some d) →
      cs.foldlM (c.step []) p = some place → ∃ d, c.node place = some d := by
    intro cs
    induction cs with
    | nil =>
      intro p hp h
      exact Option.some.inj h ▸ hp
    | cons n cs ih =>
      intro p hp h
      rw [List.foldlM_cons] at h
      obtain ⟨q, hq, h⟩ := Option.bind_eq_some_iff.1 h
      exact ih q (hstep p q n hp hq) h
  obtain ⟨d, hd, -⟩ := c.root
  exact hrun (components path) [] ⟨d, hd⟩ h

theorem isDir_of_mem {c : Contents} {place : List Key} {name : Key} (h : name ∈ c.names place) :
    c.isDir place = true := by
  obtain ⟨n, hn⟩ := (c.listed place name).1 h
  obtain ⟨d, hd, hdir⟩ := c.within place name n hn
  simp [Contents.isDir, hd, hdir]

theorem entry_of_mem {c : Contents} {place : List Key} {name : Key} (h : name ∈ c.names place) :
    (c.entry place name).text = name ∧ c.entry place name ≠ .nothing := by
  obtain ⟨n, hn⟩ := (c.listed place name).1 h
  unfold Contents.entry
  rw [hn]
  exact ⟨rfl, by simp [Answer.nothing]⟩

theorem memberPathCall_eq {extra : ℕ} {request : List UInt8 → Request} {f : Option (List Key) → Answer}
    (hnone : f none = .nothing)
    (hask : ∀ composed, (served disk changes turns).ask m.volume badge (request composed) =
      f ((disk m.volume).walk composed)) :
    memberPathCall (served disk changes turns) badge m path extra request =
      f (reached disk path extra m) := by
  unfold memberPathCall reached
  rcases memberComposedPath m path with _ | composed
  · exact hnone.symm
  · simp only [Option.bind_some]
    split
    · exact hnone.symm
    · exact hask composed

theorem memberStat_eq : memberPathCall (served disk changes turns) badge m path 0 .stat =
    match (reached disk path 0 m).bind (disk m.volume).node with
    | none => .nothing
    | some n => ⟨[n.kind, n.size, n.mtime, n.inode], []⟩ :=
  memberPathCall_eq (f := fun place => match place.bind (disk m.volume).node with
    | none => .nothing
    | some n => ⟨[n.kind, n.size, n.mtime, n.inode], []⟩) rfl fun _ => rfl

theorem memberRead_eq (offset max : ℕ) :
    memberPathCall (served disk changes turns) badge m path 2 (.read · offset max) =
    match fileAt disk path m with
    | none => .nothing
    | some bytes =>
      if offset > bytes.length then .nothing
      else
        let got := min (min max kReadMax) (bytes.length - offset)
        ⟨[got, if offset + got ≥ bytes.length then 1 else 0], (bytes.drop offset).take got⟩ := by
  rw [memberPathCall_eq (f := fun place => match place.bind (disk m.volume).node with
    | none => .nothing
    | some n =>
      if n.isDir ∨ offset > n.bytes.length then .nothing
      else
        let got := min (min max kReadMax) (n.bytes.length - offset)
        ⟨[got, if offset + got ≥ n.bytes.length then 1 else 0], (n.bytes.drop offset).take got⟩)
    rfl fun _ => rfl]
  unfold fileAt
  rcases reached disk path 2 m with _ | place
  · rfl
  · simp only [Option.bind_some]
    rcases (disk m.volume).node place with _ | n
    · rfl
    · by_cases hd : n.isDir = true
      · simp [hd]
      · simp [hd]

theorem memberListEntry_eq :
    memberListEntry (served disk changes turns) badge path m = answers (listing disk path m) := by
  funext i
  unfold memberListEntry
  rw [memberPathCall_eq (f := fun place => match place with
    | none => .nothing
    | some place =>
      if (disk m.volume).isDir place = false then .nothing
      else match ((disk m.volume).names place)[i]? with
      | none => .nothing
      | some name => (disk m.volume).entry place name) rfl fun _ => rfl]
  unfold listing answers
  rcases reached disk path 1 m with _ | place
  · rfl
  · simp only [List.getElem?_map]
    rcases hi : ((disk m.volume).names place)[i]? with _ | name
    · simp
    · have hdir := isDir_of_mem (List.mem_of_getElem? hi)
      simp [hdir]

theorem listing_ne : ∀ a ∈ listing disk path m, a ≠ .nothing := by
  intro a ha
  unfold listing at ha
  split at ha
  · cases ha
  · obtain ⟨name, hname, rfl⟩ := List.mem_map.1 ha
    exact (entry_of_mem hname).2

theorem listing_nodup : ((listing disk path m).map Answer.text).Nodup := by
  unfold listing
  split
  · exact List.nodup_nil
  · next place _ =>
    have htext : ((disk m.volume).names place).map (Answer.text ∘ (disk m.volume).entry place) =
        (disk m.volume).names place :=
      (List.map_congr_left fun name hname => (entry_of_mem hname).1).trans (List.map_id _)
    rw [List.map_map, htext]
    exact (disk m.volume).nodup place

theorem lists_iff {a : Answer} :
    Lists (served disk changes turns) badge path m a ↔ a ∈ listing disk path m := by
  unfold Lists
  rw [memberListEntry_eq]
  constructor
  · rintro ⟨hne, i, hi⟩
    unfold answers at hi
    rcases hg : (listing disk path m)[i]? with _ | a'
    · rw [hg] at hi
      exact absurd hi.symm hne
    · rw [hg] at hi
      exact List.mem_of_getElem? (hg.trans (congrArg some hi))
  · intro ha
    obtain ⟨i, hi⟩ := List.mem_iff_getElem?.1 ha
    exact ⟨listing_ne a ha, i, by simp [answers, hi]⟩

variable {binding : Binding}

theorem unionList_eq (ht : ∀ m ∈ binding.members, (listing disk path m).length < turns) :
    unionList (served disk changes turns) binding badge path =
      answers (merged (listing disk path) [] binding.members) := by
  funext i
  exact scanMembers_eq (fun m _ => memberListEntry_eq) (fun _ _ => listing_ne) ht (Nat.zero_le i)

/-! ## Listing -/

theorem answers_inj {l l' : List Answer} (h : ∀ i, answers l i = answers l' i)
    (hl : ∀ a ∈ l, a ≠ .nothing) (hl' : ∀ a ∈ l', a ≠ .nothing) : l = l' := by
  refine List.ext_getElem? fun i => ?_
  have hi := h i
  unfold answers at hi
  rcases hg : l[i]? with _ | a
  · rcases hg' : l'[i]? with _ | a'
    · rfl
    · rw [hg, hg'] at hi
      exact absurd hi.symm (hl' a' (List.mem_of_getElem? hg'))
  · rcases hg' : l'[i]? with _ | a'
    · rw [hg, hg'] at hi
      exact absurd hi (hl a (List.mem_of_getElem? hg))
    · rw [hg, hg'] at hi
      exact congrArg some hi

theorem exists_first {ms : List Member} {m : Member} {a : Answer} (hm : m ∈ ms)
    (ha : a ∈ listing disk path m) : ∃ before m' after a', ms = before ++ m' :: after ∧
      a' ∈ listing disk path m' ∧ a'.text = a.text ∧
      ∀ p ∈ before, ∀ b ∈ listing disk path p, b.text ≠ a.text := by
  induction ms with
  | nil => cases hm
  | cons x ms ih =>
    by_cases hx : ∃ b ∈ listing disk path x, b.text = a.text
    · obtain ⟨b, hb, hba⟩ := hx
      exact ⟨[], x, ms, b, rfl, hb, hba, nofun⟩
    · rcases List.mem_cons.1 hm with rfl | hm
      · exact absurd ⟨a, ha, rfl⟩ hx
      · obtain ⟨before, m', after, a', rfl, ha', htext, hnone⟩ := ih hm
        refine ⟨x :: before, m', after, a', rfl, ha', htext, ?_⟩
        intro p hp b hb hba
        rcases List.mem_cons.1 hp with rfl | hp
        · exact hx ⟨b, hb, hba⟩
        · exact hnone p hp b hb hba

/-- The merge has the first entry of each name, just if the names are short and of one case. -/
theorem merged_iff {ms : List Member} :
    (∀ a, a ∈ merged (listing disk path) [] ms ↔ ∃ before m after, ms = before ++ m :: after ∧
      a ∈ listing disk path m ∧ ∀ p ∈ before, ∀ a' ∈ listing disk path p, a'.text ≠ a.text) ↔
    Short disk path ms ∧ OneCase disk path ms := by
  constructor
  · intro h
    constructor
    · intro m hm a ha
      obtain ⟨before, m', after, a', hms, ha', htext, hnone⟩ := exists_first hm ha
      rw [← htext] at hnone ⊢
      obtain ⟨_, _, _, -, hw, -⟩ := mem_merged.1 ((h a').2 ⟨before, m', after, hms, ha', hnone⟩)
      exact isShort_of_mem_takeWhile hw
    · intro before m after hms a ha p hp a' ha' hsame
      by_contra hno
      push Not at hno
      obtain ⟨before', m', after', hms', hw, hf⟩ :=
        mem_merged.1 ((h a).2 ⟨before, m, after, hms, ha, fun q hq b hb => hno q hq b hb⟩)
      -- the member it is counted at is not one of those before, which do not list it
      have hp' : p ∈ before' := by
        rcases List.append_eq_append_iff.1 (hms.symm.trans hms') with ⟨l, hl, -⟩ | ⟨l, hl, hl'⟩
        · exact hl ▸ List.mem_append_left _ hp
        · cases l with
          | nil => rwa [hl, List.append_nil] at hp
          | cons x l =>
            obtain ⟨rfl, -⟩ := List.cons.inj hl'
            exact absurd rfl (hno m' (by simp [hl]) a ((List.takeWhile_sublist _).subset hw))
      have hlen : a'.text.length = a.text.length := by
        have := congrArg List.length (beq_iff_eq.1 hsame)
        simpa using this
      have := isFresh_iff.1 hf p (by simpa using hp') a' ha'
      have hshort := isShort_of_mem_takeWhile hw
      simp [answerNameIs, hsame, hlen, hshort] at this
  · rintro ⟨hshort, hcase⟩ a
    rw [mem_merged]
    refine exists_congr fun before => exists_congr fun m => exists_congr fun after =>
      and_congr_right fun hms => ?_
    have hm : m ∈ ms := by simp [hms]
    have hall : (listing disk path m).takeWhile isShort = listing disk path m :=
      List.takeWhile_eq_self_iff.2 fun b hb => by simpa [isShort] using hshort m hm b hb
    rw [hall, List.nil_append, isFresh_iff]
    refine and_congr_right fun ha => ?_
    constructor
    · intro hf p hp a' ha' htext
      have := hf p hp a' ha'
      rw [answerNameIs_of_eq htext (hshort m hm a ha)] at this
      cases this
    · intro hfirst p hp a' ha'
      by_contra hname
      have hsame : sameVolume a'.text a.text = true := by
        simp only [answerNameIs, Bool.not_eq_false, Bool.and_eq_true] at hname
        exact hname.2
      obtain ⟨q, hq, b, hb, htext⟩ := hcase before m after hms a ha p hp a' ha' hsame
      exact hfirst q hq b hb htext

/-! ## The first member -/

theorem firstAnswer_eq (call : Member → Answer) (ms : List Member) :
    firstAnswer call ms = ((ms.find? (call · ≠ .nothing)).map call).getD .nothing := by
  induction ms with
  | nil => rfl
  | cons m ms ih =>
    unfold firstAnswer
    by_cases hm : call m = .nothing
    · rw [if_neg (not_not.2 hm), ih, List.find?_cons_of_neg (by simpa using hm)]
    · rw [if_pos hm, List.find?_cons_of_pos (by simpa using hm)]
      rfl

theorem firstAnswer_ne {call : Member → Answer} {ms : List Member} :
    firstAnswer call ms ≠ .nothing ↔ ∃ m ∈ ms, call m ≠ .nothing := by
  induction ms with
  | nil => simp [firstAnswer]
  | cons m ms ih =>
    unfold firstAnswer
    by_cases hm : call m = .nothing
    · rw [if_neg (not_not.2 hm), ih]
      simp [hm]
    · rw [if_pos hm]
      simp [hm]

theorem memberHas_eq : memberHas (served disk changes turns) badge path =
    fun m => (reached disk path 0 m).isSome := by
  funext m
  unfold memberHas
  rw [memberStat_eq, Bool.eq_iff_iff, decide_eq_true_iff]
  rcases hr : reached disk path 0 m with _ | place
  · simp
  · obtain ⟨composed, -, hc⟩ := Option.bind_eq_some_iff.1 hr
    split at hc
    · cases hc
    · obtain ⟨n, hn⟩ := walk_node hc
      simp [hn, Answer.nothing]

theorem reached_of_fileAt {bytes : List UInt8} (h : fileAt disk path m = some bytes) :
    (reached disk path 0 m).isSome = true := by
  obtain ⟨place, hplace, -⟩ := Option.bind_eq_some_iff.1 h
  obtain ⟨composed, hcomposed, hw⟩ := Option.bind_eq_some_iff.1 hplace
  unfold reached
  rw [hcomposed, Option.bind_some]
  split at hw
  · cases hw
  · rw [if_neg (by omega), hw]
    rfl

theorem memberRead_ne {offset max : ℕ} :
    memberPathCall (served disk changes turns) badge m path 2 (.read · offset max) ≠ .nothing ↔
      ∃ bytes, fileAt disk path m = some bytes ∧ offset ≤ bytes.length := by
  rw [memberRead_eq]
  rcases fileAt disk path m with _ | bytes
  · simp
  · by_cases ho : offset > bytes.length
    · simp [ho]
    · simp [ho, Answer.nothing]
      omega

/-- A read is the first member's at every offset, just if no other has a longer file. -/
theorem reads_iff : (∀ offset max,
      unionRead (served disk changes turns) binding badge path offset max =
        ((binding.members.find? (memberHas (served disk changes turns) badge path)).map
          (memberPathCall (served disk changes turns) badge · path 2 (.read · offset max))).getD .nothing) ↔
    NoLonger disk path binding.members := by
  rw [memberHas_eq]
  unfold unionRead NoLonger
  rcases hfind : binding.members.find? (fun m => (reached disk path 0 m).isSome) with _ | first
  · -- nobody has the path
    refine iff_of_true (fun offset max => ?_) nofun
    by_contra hne
    obtain ⟨m, hm, hread⟩ := firstAnswer_ne.1 hne
    obtain ⟨bytes, hbytes, -⟩ := memberRead_ne.1 hread
    exact List.find?_eq_none.1 hfind m hm (reached_of_fileAt hbytes)
  · simp only [Option.map_some, Option.getD_some, Option.some_inj, forall_eq']
    constructor
    · intro h m hm bytes hbytes
      -- the end of the file is an offset that the member answers at
      have hread : memberPathCall (served disk changes turns) badge m path 2
          (.read · bytes.length 0) ≠ .nothing := memberRead_ne.2 ⟨bytes, hbytes, le_rfl⟩
      have hunion : firstAnswer (fun m => memberPathCall (served disk changes turns) badge m path 2
          (.read · bytes.length 0)) binding.members ≠ .nothing := firstAnswer_ne.2 ⟨m, hm, hread⟩
      rw [h] at hunion
      exact memberRead_ne.1 hunion
    · intro h offset max
      obtain ⟨-, before, after, hms, hnone⟩ := List.find?_eq_some_iff_append.1 hfind
      rw [hms, firstAnswer_eq, List.find?_append]
      have hbefore : before.find? (fun m => memberPathCall (served disk changes turns) badge m path 2
          (.read · offset max) ≠ .nothing) = none := by
        refine List.find?_eq_none.2 fun m hm hread => ?_
        obtain ⟨bytes, hbytes, -⟩ := memberRead_ne.1 (of_decide_eq_true hread)
        have := hnone m hm
        simp [reached_of_fileAt hbytes] at this
      rw [hbefore, Option.none_or]
      by_cases hfirst : memberPathCall (served disk changes turns) badge first path 2
          (.read · offset max) = .nothing
      · rw [← firstAnswer_eq, hfirst]
        by_contra hne
        obtain ⟨m, hm, hread⟩ := firstAnswer_ne.1 hne
        obtain ⟨bytes, hbytes, hle⟩ := memberRead_ne.1 hread
        obtain ⟨bytes', hbytes', hle'⟩ := h m (by rw [hms]; exact List.mem_append_right _ hm) bytes hbytes
        exact memberRead_ne.2 ⟨bytes', hbytes', hle.trans hle'⟩ hfirst
      · rw [List.find?_cons_of_pos (by simpa using hfirst)]
        rfl

theorem stats_eq : unionStat (served disk changes turns) binding badge path =
    ((binding.members.find? (memberHas (served disk changes turns) badge path)).map
      (memberPathCall (served disk changes turns) badge · path 0 .stat)).getD .nothing :=
  firstAnswer_eq _ _

theorem removes_eq : unionRemove (served disk changes turns) binding badge path =
    ((binding.members.find? (memberHas (served disk changes turns) badge path)).map
      (memberPathCall (served disk changes turns) badge · path 0 .remove)).getD .nothing := by
  unfold unionRemove firstMemberWith
  rw [← List.find?_eq_bind_findIdx?_getElem?]
  rcases binding.members.find? (memberHas (served disk changes turns) badge path) with _ | first
  · rfl
  · rfl

/-! ## Names under a path -/

theorem sum_components (p : List UInt8) : ((components p).map (·.length + 1)).sum ≤ p.length + 1 := by
  have hsplit : ∀ p : List UInt8, ((p.splitOn kSlash).map (·.length + 1)).sum = p.length + 1 := by
    intro p
    induction p with
    | nil => simp
    | cons x xs ih =>
      rw [List.splitOn_cons_eq_if_modifyHead]
      split
      · simp [ih]
        omega
      · rcases hs : xs.splitOn kSlash with _ | ⟨a, as⟩
        · exact absurd hs (List.splitOn_ne_nil _ _)
        · rw [hs] at ih
          simp only [List.modifyHead_cons, List.map_cons, List.sum_cons, List.length_cons] at ih ⊢
          omega
  have hp := hsplit p
  unfold components
  simp only
  split
  · next hlast =>
    obtain ⟨front, hfront⟩ := List.getLast?_eq_some_iff.1 hlast
    rw [hfront] at hp ⊢
    rw [List.dropLast_concat]
    rw [List.map_append, List.sum_append] at hp
    exact (Nat.le_add_right _ _).trans hp.le
  · exact hp.le

theorem foldlM_composeStep_some {base : List UInt8} {capacity : ℕ} {cs : List Key}
    (text : List UInt8) (h : base.length + text.length + (cs.map (·.length + 1)).sum ≤ capacity) :
    ∃ r, cs.foldlM (composeStep base capacity) text = some r ∧
      r.length ≤ text.length + (cs.map (·.length + 1)).sum := by
  induction cs generalizing text with
  | nil => exact ⟨text, rfl, Nat.le_add_right _ _⟩
  | cons c cs ih =>
    rw [List.map_cons, List.sum_cons] at h ⊢
    rw [List.foldlM_cons]
    by_cases hc : c = []
    · have hlen : ((text.rdropWhile (· ≠ kSlash)).dropLast).length ≤ text.length := by
        have := (List.rdropWhile_prefix (· ≠ kSlash) (l := text)).length_le
        rw [List.length_dropLast]
        omega
      obtain ⟨r, hr, hle⟩ := ih (text.rdropWhile (· ≠ kSlash)).dropLast (by omega)
      refine ⟨r, ?_, by omega⟩
      have hstep : composeStep base capacity text c =
          some (text.rdropWhile (· ≠ kSlash)).dropLast := if_pos hc
      rw [hstep]
      exact hr
    · have hlen : (text ++ kSlash :: c).length = text.length + (c.length + 1) := by
        rw [List.length_append, List.length_cons]
      obtain ⟨r, hr, hle⟩ := ih (text ++ kSlash :: c) (by omega)
      refine ⟨r, ?_, by omega⟩
      have hstep : composeStep base capacity text c = some (text ++ kSlash :: c) := by
        unfold composeStep
        rw [if_neg hc, if_neg (by omega)]
      rw [hstep]
      exact hr

theorem composeView_some {volume : Volume} {p : List UInt8} {capacity : ℕ}
    (h : volume.base.length + p.length + 1 ≤ capacity) : ∃ r, composeView volume p capacity = some r ∧
      r.length ≤ volume.base.length + p.length + 1 := by
  unfold composeView
  split
  · rw [if_neg (by omega)]
    exact ⟨p, rfl, by omega⟩
  · have hsum := sum_components p
    have hfit : volume.base.length + ([] : List UInt8).length +
        ((components p).map (·.length + 1)).sum ≤ capacity := by
      rw [List.length_nil]
      omega
    obtain ⟨r, hr, hle⟩ := foldlM_composeStep_some [] hfit
    refine ⟨volume.base ++ r, by rw [hr]; rfl, ?_⟩
    rw [List.length_nil] at hle
    rw [List.length_append]
    omega

def behind (base : List UInt8) (cs : List Key) : List Key :=
  if base = [] then cs else components base ++ cs.foldl takeBack []

theorem behind_snoc (base : List UInt8) (cs : List Key) {n : Key} (hn : n ≠ []) :
    behind base (cs ++ [n]) = behind base cs ++ [n] := by
  unfold behind
  split
  · rfl
  · simp [takeBack, hn]

theorem composeView_components {volume : Volume} {p r : List UInt8} {capacity : ℕ}
    (hb : volume.base.getLast? ≠ some kSlash) (h : composeView volume p capacity = some r) :
    components r = behind volume.base (components p) := by
  unfold behind
  split
  · next hnil =>
    unfold composeView at h
    rw [if_pos hnil] at h
    split at h
    · cases h
    · rw [← Option.some.inj h]
  · next hne =>
    have hall : ∀ n ∈ (components p).foldl takeBack [], IsComponent n :=
      foldl_takeBack_isComponent (fun _ hn => absurd hn List.not_mem_nil)
        fun _ hc => slash_notMem_components hc
    rw [composeView_eq hne h]
    unfold cancelled
    by_cases hleft : (components p).foldl takeBack [] = []
    · rw [hleft, render_nil, List.append_nil, List.append_nil]
    · rw [components_base hall hleft, components_of_unslashed ⟨hne, hb⟩]

theorem composePath_components {rest p r : List UInt8} (hr : rest.getLast? ≠ some kSlash)
    (h : composePath rest p = some r) : components r = components rest ++ components p := by
  have hr' : r = rest ++ (if rest ≠ [] ∧ p ≠ [] then [kSlash] else []) ++ p := by
    unfold composePath at h
    rcases Nat.lt_or_ge kPathMax
      (rest ++ (if rest ≠ [] ∧ p ≠ [] then [kSlash] else []) ++ p).length with hl | hl
    · rw [if_pos hl] at h
      cases h
    · rw [if_neg (by omega)] at h
      exact (Option.some.inj h).symm
  rw [hr']
  by_cases hrest : rest = []
  · simp [hrest, components_nil]
  · by_cases hp : p = []
    · simp [hp, components_nil]
    · rw [if_pos ⟨hrest, hp⟩, List.append_assoc, List.singleton_append, components_append,
        components_of_unslashed ⟨hrest, hr⟩]

theorem components_child {name : Key} (hn : IsComponent name) :
    components (child path name) = components path ++ [name] := by
  unfold child
  by_cases hnil : path = []
  · rw [if_pos (.inl hnil), hnil, components_nil, List.nil_append, List.nil_append,
      components_name hn]
  · by_cases hlast : path.getLast? = some kSlash
    · obtain ⟨front, rfl⟩ := List.getLast?_eq_some_iff.1 hlast
      have hpath := components_append front []
      rw [components_nil, List.append_nil] at hpath
      rw [if_pos (.inr hlast), List.append_assoc, List.singleton_append, components_append, hpath,
        components_name hn]
    · rw [if_neg (by tauto), components_append, components_of_unslashed ⟨hnil, hlast⟩,
        components_name hn]

theorem reached_eq {p : List UInt8} {extra : ℕ} (hr : m.rest.getLast? ≠ some kSlash)
    (hb : m.volume.base.getLast? ≠ some kSlash)
    (hf : m.volume.base.length + m.rest.length + p.length + 2 ≤ kPathMax)
    (he : 1 + (m.volume.base.length + m.rest.length + p.length + 9) / 8 + extra ≤ kMaxWords) :
    reached disk p extra m =
      (behind m.volume.base (components m.rest ++ components p)).foldlM
        ((disk m.volume).step []) [] := by
  obtain ⟨joined, hj, hjl⟩ : ∃ joined, composePath m.rest p = some joined ∧
      joined.length ≤ m.rest.length + p.length + 1 := by
    unfold composePath
    simp only
    have hlen : (m.rest ++ (if m.rest ≠ [] ∧ p ≠ [] then [kSlash] else []) ++ p).length ≤
        m.rest.length + p.length + 1 := by
      split
      · simp
        omega
      · simp
    rw [if_neg (by omega)]
    exact ⟨_, rfl, hlen⟩
  have hview : m.volume.base.length + joined.length + 1 ≤ kPathMax := by omega
  obtain ⟨composed, hc, hcl⟩ := composeView_some hview
  have hmember : memberComposedPath m p = some composed := by
    unfold memberComposedPath
    rw [hj]
    exact hc
  unfold reached
  rw [hmember, Option.bind_some, if_neg (by unfold packedWords; omega), Contents.walk,
    Contents.walkIn, composeView_components hb hc, composePath_components hr hj]

theorem step_name {c : Contents} {place : List Key} {name : Key} (hn : IsName name) :
    (c.step [] place name).isSome = true ↔ name ∈ c.names place := by
  unfold Contents.step
  rw [if_neg hn.component.1]
  constructor
  · intro h
    split at h
    · cases h
    rw [if_neg hn.dot, if_neg hn.dotDot] at h
    split at h
    · next hs => exact (c.listed place name).2 (Option.isSome_iff_exists.1 hs)
    · cases h
  · intro h
    have hs := Option.isSome_iff_exists.2 ((c.listed place name).1 h)
    rw [if_neg (by simp [isDir_of_mem h]), if_neg hn.dot, if_neg hn.dotDot, if_pos hs]
    rfl

theorem listing_iff_reached {name : Key} (hm : Straight path m) (hn : IsName name) :
    (∃ a ∈ listing disk path m, a.text = name) ↔ (reached disk (child path name) 0 m).isSome = true := by
  have hfits := hm.fits
  have hshort := hn.short
  have hchild : (child path name).length ≤ path.length + name.length + 1 := by
    unfold child
    split
    · simp
    · simp
      omega
  simp only [kPathMax] at hfits
  have hlist : reached disk path 1 m = _ := reached_eq hm.rest hm.base
    (by simp only [kPathMax]; omega) (by simp only [kMaxWords]; omega)
  have hreach : reached disk (child path name) 0 m = _ := reached_eq hm.rest hm.base
    (by simp only [kPathMax]; omega) (by simp only [kMaxWords]; omega)
  have hone : ∀ place : List Key, [name].foldlM ((disk m.volume).step []) place =
      (disk m.volume).step [] place name := by
    intro place
    simp
  rw [components_child hn.component, ← List.append_assoc, behind_snoc _ _ hn.component.1,
    List.foldlM_append, ← hlist] at hreach
  rw [hreach]
  unfold listing
  rcases hp : reached disk path 1 m with _ | place
  · simp
  · rw [Option.bind_eq_bind, Option.bind_some, hone, step_name hn]
    constructor
    · rintro ⟨a, ha, htext⟩
      obtain ⟨n, hmem, rfl⟩ := List.mem_map.1 ha
      rwa [← htext, (entry_of_mem hmem).1]
    · intro hmem
      exact ⟨_, List.mem_map_of_mem hmem, (entry_of_mem hmem).1⟩

theorem memberStat_ne : memberPathCall (served disk changes turns) badge m path 0 .stat ≠ .nothing ↔
    (reached disk path 0 m).isSome = true := by
  have h : memberHas (served disk changes turns) badge path m = (reached disk path 0 m).isSome :=
    congrFun memberHas_eq m
  rw [← h, memberHas, decide_eq_true_iff]

/-! ## One directory -/

theorem listing_of_mem_merged {ms : List Member} {a : Answer}
    (h : a ∈ merged (listing disk path) [] ms) : ∃ m ∈ ms, a ∈ listing disk path m := by
  obtain ⟨before, m, after, rfl, hw, -⟩ := mem_merged.1 h
  exact ⟨m, by simp, (List.takeWhile_sublist _).subset hw⟩

end

/-! ## A file behind a shorter one -/

/-- Two volumes with a file of one name, the first shorter than the second. -/
def shadow (bytes : List UInt8) (volume : Volume) : Contents :=
  .single [102] ⟨false, if volume.port = 16 then [] else bytes, 0, 2⟩ (by decide)

def shadowing : Binding :=
  ⟨kAliasEveryone, 0, 1, [85], [⟨⟨[65], 0, 16, 0, []⟩, [], 0⟩, ⟨⟨[66], 0, 17, 0, []⟩, [], 0⟩]⟩

def refuse (_ : Volume) (_ : ℕ) (_ : Request) : Answer := .nothing

end Aegir.Vfs
