/-
# Writing modules

A module is written under a temporary name and then takes its place, so that a file of that name never
holds half a module.  Its directory gets the file that makes it a package.

* `Emission.ensurePackage` : the package marker of a directory;
* `Emission.emit` : a module and its package marker.
-/
import TestScribe.Disk

namespace TestScribe.Emission

/-- The content of package markers. -/
def packageNotice : String := "# NOTICE: Generated By HttpRunner. DO NOT EDIT!\n"

/-- The name under which a module is written before it takes its place. -/
def temporary (output : Path) : Path := output.extend ".tmp"

/-- A directory gets a package marker, unless it has one. -/
def ensurePackage (marker : String) (directory : Path) : Disk.Operation Unit := do
  if (← get).isFile (directory.child marker) then return
  else Disk.write (directory.child marker) packageNotice.toUTF8

/-- A module is written into a directory, which is made if it is missing. -/
def emit (marker text : String) (directory output : Path) : Disk.Operation Unit := do
  Disk.createDirectories directory
  Disk.write (temporary output) text.toUTF8
  Disk.rename (temporary output) output
  ensurePackage marker directory

end TestScribe.Emission
