import UiWorkspace.Proofs.Workspace.ControlSearch

/-! The markup a class reaches, and two states whose markup differs elsewhere. A control is
searched among the documents that the class reaches; where these are the same in both states the
search goes the same way. -/
namespace UiWorkspace.Workspace

open UiWorkspace.Markup

/-- A document that a path can lead to, now or after some reading. -/
def Offers (w : Workspace) (path : FilePath) (d : Document) : Prop :=
  w.cachedDocument? path = some d ∨
    w.cachedDocument? path = none ∧ ∃ written, (written == path) = true ∧ w.stored? written = some d

/-- The paths at which the controls of a class are searched: those of its views, of the fragments
that its script mentions, and of the fragments that these include. -/
inductive Reaches (w : Workspace) (className : String) : FilePath → Prop
  | view {path : FilePath} {d : Document} : Offers w path d → d.kind = .view →
      d.controller? = some className → Reaches w className path
  | mentioned {path : FilePath} {d : Document} {c : ClassDefinition} {source : ProjectSource}
      {name : String} : Offers w path d → d.kind = .fragment → w.classNamed? className = some c →
      c.source? = some source → w.className? d.path = some name → mentions source.text name = true →
      Reaches w className path
  | included {path target : FilePath} {d : Document} {name : String} : Reaches w className path →
      Offers w path d → name ∈ d.fragments → w.candidate? name ".fragment.xml" = some target →
      Reaches w className target

theorem offers_of_offered? {w : Workspace} {path : FilePath} {d : Document}
    (h : w.offered? path = some d) : Offers w path d := by
  unfold offered? at h
  cases hcached : w.cachedDocument? path with
  | some d' =>
    rw [hcached, Option.some_or] at h
    exact .inl (hcached.trans h)
  | none =>
    rw [hcached, Option.none_or] at h
    exact .inr ⟨hcached, path, FilePath.beq_self path, h⟩

namespace Learned

variable {w v : Workspace}

theorem offers (h : Learned w v) {path : FilePath} {d : Document} (hd : Offers v path d) :
    Offers w path d := by
  rcases hd with hd | ⟨hnone, written, hpath, hstored⟩
  · rcases h.loaded hd with hd | ⟨hnone, hpath, hstored⟩
    · exact .inl hd
    · exact .inr ⟨hnone, d.path, hpath, hstored⟩
  · refine .inr ⟨?_, written, hpath, h.stored? written ▸ hstored⟩
    cases hw : w.cachedDocument? path with
    | none => rfl
    | some d' => rw [h.kept hw] at hnone; cases hnone

theorem reaches (h : Learned w v) {className : String} {path : FilePath}
    (hpath : Reaches v className path) : Reaches w className path := by
  induction hpath with
  | view hd hkind hcontroller => exact .view (h.offers hd) hkind hcontroller
  | mentioned hd hkind hclass hsource hname hmentions =>
    rw [h.classNamed?] at hclass
    rw [className?_congr h.manifests] at hname
    exact .mentioned (h.offers hd) hkind hclass hsource hname hmentions
  | included _ hd hname htarget ih =>
    rw [candidate?_congr h.manifests] at htarget
    exact .included ih (h.offers hd) hname htarget

end Learned

/-- The states have the same manifests, and the same documents but for those at some paths. -/
structure SameMarkup (differs : FilePath → Prop) (w v : Workspace) : Prop where
  manifests : w.manifests = v.manifests
  stored (path : FilePath) : w.stored? path = v.stored? path
  sorted : SortedByPath w.documents
  sorted' : SortedByPath v.documents
  kept {path : FilePath} : ¬ differs path → w.cachedDocument? path = v.cachedDocument? path

namespace SameMarkup

variable {differs : FilePath → Prop} {w v : Workspace}

theorem filter_eq (h : SameMarkup differs w v) (pick : Document → Bool)
    (hw : ∀ d ∈ w.documents, pick d = true → ¬ differs d.path)
    (hv : ∀ d ∈ v.documents, pick d = true → ¬ differs d.path) :
    w.documents.filter pick = v.documents.filter pick := by
  refine (h.sorted.filter pick).ext (h.sorted'.filter pick) fun d => ?_
  rw [List.mem_filter, List.mem_filter]
  constructor
  · rintro ⟨hd, hpick⟩
    have hcached : v.cachedDocument? d.path = some d :=
      (h.kept (hw d hd hpick)).symm.trans (h.sorted.find?_of_mem hd)
    exact ⟨List.mem_of_find?_eq_some hcached, hpick⟩
  · rintro ⟨hd, hpick⟩
    have hcached : w.cachedDocument? d.path = some d :=
      (h.kept (hv d hd hpick)).trans (h.sorted'.find?_of_mem hd)
    exact ⟨List.mem_of_find?_eq_some hcached, hpick⟩

theorem keeping (h : SameMarkup differs w v) (found? : Option Document) :
    SameMarkup differs (w.keeping found?) (v.keeping found?) := by
  cases found? with
  | none => exact h
  | some d =>
    refine ⟨h.manifests, h.stored, h.sorted.insertDocument d, h.sorted'.insertDocument d, ?_⟩
    intro path hpath
    change (w.putDocument d).cachedDocument? path = (v.putDocument d).cachedDocument? path
    rw [cachedDocument?_putDocument, cachedDocument?_putDocument, h.kept hpath]

theorem offered? (h : SameMarkup differs w v) {path : FilePath} (hpath : ¬ differs path) :
    w.offered? path = v.offered? path := by
  unfold Workspace.offered?
  rw [h.kept hpath, h.stored]

theorem fetch (h : SameMarkup differs w v) {path : FilePath} (hpath : ¬ differs path) :
    SameMarkup differs (w.fetch path) (v.fetch path) := by
  unfold Workspace.fetch
  rw [h.kept hpath, h.stored]
  cases v.cachedDocument? path with
  | some d => exact h
  | none => exact h.keeping _

theorem examine (h : SameMarkup differs w v) (d : Document) :
    SameMarkup differs (Workspace.examine d w).2 (Workspace.examine d v).2 := by
  obtain ⟨_, hw⟩ := examine_run d w
  obtain ⟨_, hv⟩ := examine_run d v
  rw [hw, hv]
  exact ⟨h.manifests, h.stored, h.sorted, h.sorted', h.kept⟩

theorem class? (h : SameMarkup differs w v) (name : String) :
    SameMarkup differs (Workspace.class? name w).2 (Workspace.class? name v).2 := by
  obtain ⟨_, _, hw⟩ := class?_run name w
  obtain ⟨_, _, hv⟩ := class?_run name v
  rw [hw, hv]
  exact ⟨h.manifests, h.stored, h.sorted, h.sorted', h.kept⟩

theorem fragmentNamed? (h : SameMarkup differs w v) {name : String}
    (hsafe : ∀ path, w.candidate? name ".fragment.xml" = some path → ¬ differs path) :
    (Workspace.fragmentNamed? name w).1 = (Workspace.fragmentNamed? name v).1 ∧
      SameMarkup differs (Workspace.fragmentNamed? name w).2 (Workspace.fragmentNamed? name v).2 := by
  obtain ⟨asked, hw⟩ := fragmentNamed?_run name w
  obtain ⟨asked', hv⟩ := fragmentNamed?_run name v
  have hprobing : SameMarkup differs (w.probing asked) (v.probing asked') :=
    ⟨h.manifests, h.stored, h.sorted, h.sorted', h.kept⟩
  have hsafe : ∀ path, (w.probing asked).candidate? name ".fragment.xml" = some path →
      ¬ differs path := hsafe
  rw [hw, hv, ← candidate?_congr hprobing.manifests]
  cases hcandidate : (w.probing asked).candidate? name ".fragment.xml" with
  | none => exact ⟨rfl, hprobing⟩
  | some path =>
    have hpath := hsafe path hcandidate
    exact ⟨hprobing.offered? hpath, hprobing.fetch hpath⟩

end SameMarkup

section

variable {start : Workspace} {className : String} {differs : FilePath → Prop}
  (hsafe : ∀ path, Reaches start className path → ¬ differs path)

def Reached (start : Workspace) (className : String) (d : Document) : Prop :=
  ∃ path, Reaches start className path ∧ Offers start path d

theorem reached_fragmentNamed? {w : Workspace} (hw : Learned start w) {name : String} {d : Document}
    (hd : Reached start className d) (hname : name ∈ d.fragments) (found : Document)
    (hfound : (fragmentNamed? name w).1 = some found) : Reached start className found := by
  obtain ⟨path, hpath, hoffers⟩ := hd
  obtain ⟨asked, hrun⟩ := fragmentNamed?_run name w
  rw [hrun] at hfound
  cases hcandidate : (w.probing asked).candidate? name ".fragment.xml" with
  | none =>
    rw [hcandidate] at hfound
    cases hfound
  | some target =>
    rw [hcandidate] at hfound
    have htarget : start.candidate? name ".fragment.xml" = some target := by
      rw [← candidate?_congr hw.manifests]
      exact hcandidate
    have hfound : Offers w target found := offers_of_offered? (w := w.probing asked) hfound
    exact ⟨target, .included hpath hoffers hname htarget, hw.offers hfound⟩

include hsafe

theorem fragmentsNamed_same {w v : Workspace} (hw : Learned start w) (h : SameMarkup differs w v)
    {d : Document} (hd : Reached start className d) {names : List String}
    (hnames : names ⊆ d.fragments) :
    (fragmentsNamed names w).1 = (fragmentsNamed names v).1 ∧
      (∀ e ∈ (fragmentsNamed names w).1, Reached start className e) ∧
      Learned start (fragmentsNamed names w).2 ∧
      SameMarkup differs (fragmentsNamed names w).2 (fragmentsNamed names v).2 := by
  induction names generalizing w v with
  | nil => exact ⟨rfl, nofun, hw, h⟩
  | cons name names ih =>
    obtain ⟨hname, hnames⟩ := List.cons_subset.1 hnames
    have hunchanged : ∀ path, w.candidate? name ".fragment.xml" = some path → ¬ differs path := by
      intro target htarget
      obtain ⟨path, hpath, hoffers⟩ := hd
      rw [candidate?_congr hw.manifests] at htarget
      exact hsafe target (.included hpath hoffers hname htarget)
    obtain ⟨hfirst, hstate⟩ := h.fragmentNamed? hunchanged
    have hreached := reached_fragmentNamed? hw hd hname
    obtain ⟨hrest, hreached', hw', hstate'⟩ :=
      ih (hw.trans (Learned.fragmentNamed? name w)) hstate hnames
    refine ⟨?_, fun e he => ?_, hw', hstate'⟩
    · change (fragmentNamed? name w).1.toList ++ _ = (fragmentNamed? name v).1.toList ++ _
      rw [hfirst]
      exact congrArg _ hrest
    · rcases List.mem_append.1 he with he | he
      · exact hreached e (Option.mem_toList.1 he)
      · exact hreached' e he

theorem searchControl?_same (id : String) (rounds : Nat) {seen : List FilePath}
    {queue : List Document} {w v : Workspace} (hw : Learned start w) (h : SameMarkup differs w v)
    (hqueue : ∀ d ∈ queue, Reached start className d) :
    (searchControl? id rounds seen queue w).1 = (searchControl? id rounds seen queue v).1 ∧
      SameMarkup differs (searchControl? id rounds seen queue w).2
        (searchControl? id rounds seen queue v).2 := by
  induction rounds generalizing seen queue w v with
  | zero => exact ⟨rfl, h⟩
  | succ rounds ih =>
    unfold searchControl?
    cases hdrop : queue.dropWhile fun d => seen.any (· == d.path) with
    | nil => exact ⟨rfl, h⟩
    | cons d rest =>
      have hmem : ∀ e ∈ d :: rest, Reached start className e := fun e he =>
        hqueue e ((List.dropWhile_sublist _).subset (hdrop ▸ he))
      have hexamined := h.examine d
      have hw' : Learned start (examine d w).2 := (Learned.stable start).examine w d hw
      simp only [bind_run]
      cases d.classForId? id with
      | some control => exact ⟨rfl, hexamined⟩
      | none =>
        obtain ⟨hincluded, hreached, hlearned, hstate⟩ :=
          fragmentsNamed_same hsafe hw' hexamined (hmem d List.mem_cons_self) (List.Subset.refl _)
        simp only [bind_run]
        rw [← hincluded]
        apply ih hlearned hstate
        intro e he
        rcases List.mem_append.1 he with he | he
        · exact hmem e (List.mem_cons_of_mem d he)
        · exact hreached e he

end

def isViewOf (className : String) (d : Document) : Bool :=
  d.controller? == some className && d.kind == .view

def isMentionedIn (w : Workspace) (source? : Option ProjectSource) (d : Document) : Bool :=
  (source?.any fun source => (w.className? d.path).any fun name => mentions source.text name) &&
    d.kind == .fragment

def rootDocuments (w : Workspace) (className : String) : List Document :=
  w.documents.filter (isViewOf className) ++
    w.documents.filter (w.isMentionedIn ((w.classNamed? className).bind ClassDefinition.source?))

theorem controlRoots_run (className : String) (w : Workspace) :
    controlRoots className w = (w.rootDocuments className, (class? className w).2) := by
  have hviews : w.viewsOfController className = w.documents.filter (isViewOf className) :=
    List.filter_filter
  unfold controlRoots rootDocuments
  obtain ⟨_, _, hrun⟩ := class?_run className w
  simp only [bind_run, get_run, hrun, hviews]
  cases (w.classNamed? className).bind ClassDefinition.source? with
  | none =>
    have hnone : w.documents.filter (w.isMentionedIn none) = [] :=
      List.filter_eq_nil_iff.2 fun _ _ => Bool.false_ne_true
    rw [hnone, List.append_nil]
    rfl
  | some source =>
    have hsome : (w.fragments.filter fun f => (w.className? f.path).any fun name =>
        mentions source.text name) = w.documents.filter (w.isMentionedIn (some source)) :=
      List.filter_filter
    rw [← hsome]
    rfl

theorem reaches_of_isViewOf {w : Workspace} (hsorted : SortedByPath w.documents)
    {className : String} {d : Document} (hd : d ∈ w.documents) (hview : isViewOf className d = true) :
    Reaches w className d.path := by
  simp only [isViewOf, Bool.and_eq_true, beq_iff_eq] at hview
  exact .view (.inl (hsorted.find?_of_mem hd)) hview.2 hview.1

theorem reaches_of_isMentionedIn {w : Workspace} (hsorted : SortedByPath w.documents)
    {className : String} {d : Document} (hd : d ∈ w.documents)
    (hmentioned : w.isMentionedIn ((w.classNamed? className).bind ClassDefinition.source?) d = true) :
    Reaches w className d.path := by
  simp only [isMentionedIn, Bool.and_eq_true, Option.any_eq_true, beq_iff_eq] at hmentioned
  obtain ⟨⟨source, hsource, name, hname, hmentions⟩, hkind⟩ := hmentioned
  obtain ⟨c, hclass, hsource⟩ := Option.bind_eq_some_iff.1 hsource
  exact .mentioned (.inl (hsorted.find?_of_mem hd)) hkind hclass hsource hname hmentions

theorem rootDocuments_subset (w : Workspace) (className : String) :
    w.rootDocuments className ⊆ w.documents :=
  List.append_subset.2 ⟨List.filter_sublist.subset, List.filter_sublist.subset⟩

theorem reached_of_mem_rootDocuments {w : Workspace} (hsorted : SortedByPath w.documents)
    {className : String} {d : Document} (hd : d ∈ w.rootDocuments className) :
    Reached w className d := by
  refine ⟨d.path, ?_, .inl (hsorted.find?_of_mem (rootDocuments_subset w className hd))⟩
  rcases List.mem_append.1 hd with hd | hd
  · exact reaches_of_isViewOf hsorted (List.mem_filter.1 hd).1 (List.mem_filter.1 hd).2
  · exact reaches_of_isMentionedIn hsorted (List.mem_filter.1 hd).1 (List.mem_filter.1 hd).2

section

variable {differs : FilePath → Prop} {w v : Workspace} {className : String}
  (h : SameMarkup differs w v) (hclass : w.classNamed? className = v.classNamed? className)
  (hsafe : ∀ path, Reaches w className path → ¬ differs path)
  (hsafe' : ∀ path, Reaches v className path → ¬ differs path)

include h hclass hsafe hsafe'

theorem rootDocuments_same : w.rootDocuments className = v.rootDocuments className := by
  have hmentioned : w.isMentionedIn = v.isMentionedIn := by
    funext source? d
    unfold isMentionedIn
    rw [className?_congr h.manifests]
  unfold rootDocuments
  congr 1
  · exact h.filter_eq _ (fun d hd hview => hsafe _ (reaches_of_isViewOf h.sorted hd hview))
      fun d hd hview => hsafe' _ (reaches_of_isViewOf h.sorted' hd hview)
  · have hw := fun d hd hpick => hsafe _ (reaches_of_isMentionedIn (d := d) h.sorted hd hpick)
    have hv := fun d hd hpick => hsafe' _ (reaches_of_isMentionedIn (d := d) h.sorted' hd hpick)
    rw [hmentioned, hclass] at hw ⊢
    exact h.filter_eq _ hw hv

/-- A class that reaches nothing that differs finds the same controls in both states. -/
theorem controlClass?_same (id : String) :
    (controlClass? className id w).1 = (controlClass? className id v).1 ∧
      SameMarkup differs (controlClass? className id w).2 (controlClass? className id v).2 := by
  have hdocuments : ∀ u : Workspace, (class? className u).2.documents = u.documents := by
    intro u
    obtain ⟨_, _, hrun⟩ := class?_run className u
    rw [hrun]
  have hw := rootDocuments_subset w className
  have hv := rootDocuments_subset v className
  rw [← hdocuments] at hw hv
  -- Both searches are given the rounds that suffice for both.
  let rounds := max (class? className w).2.searchRounds (class? className v).2.searchRounds
  unfold controlClass?
  simp only [bind_run, get_run, controlRoots_run]
  rw [searchControl?_enough id hw (Nat.le_max_left _ _ : _ ≤ rounds),
    searchControl?_enough id hv (Nat.le_max_right _ _ : _ ≤ rounds),
    ← rootDocuments_same h hclass hsafe hsafe']
  exact searchControl?_same hsafe id rounds (Learned.class? className w) (h.class? className)
    fun d hd => reached_of_mem_rootDocuments h.sorted hd

end

end UiWorkspace.Workspace
