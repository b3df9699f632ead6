import SerialManifest.Settings.Basic

namespace SerialManifest.Settings

def defaultHeader : String :=
  String.intercalate "\n" [
    "#",
    "# Licensed to the Apache Software Foundation (ASF) under one or more",
    "# contributor license agreements.  See the NOTICE file distributed with",
    "# this work for additional information regarding copyright ownership.",
    "# The ASF licenses this file to You under the Apache License, Version 2.0",
    "# (the \"License\"); you may not use this file except in compliance with",
    "# the License.  You may obtain a copy of the License at",
    "#",
    "#      http://www.apache.org/licenses/LICENSE-2.0",
    "#",
    "# Unless required by applicable law or agreed to in writing, software",
    "# distributed under the License is distributed on an \"AS IS\" BASIS,",
    "# WITHOUT WARRANTIES OR CONDITIONS OF ANY KIND, either express or implied.",
    "# See the License for the specific language governing permissions and",
    "# limitations under the License.",
    "#"]

def defaultNamespaces : List String :=
  ["org.apache.ignite", "org.jdk8.backport", "org.pcollections", "com.romix.scala"]

def defaultSerializable : String := "java.io.Serializable"

/-- The capabilities of results that are still to come, which are never stored. -/
def defaultExcluded : List String := [
  "org.apache.ignite.lang.IgniteFuture",
  "org.apache.ignite.internal.IgniteInternalFuture",
  "org.apache.ignite.internal.client.GridClientFuture"]

def defaultLeafTypes : List String := [
  "java.lang.Comparable",
  "java.lang.Cloneable",
  "java.lang.Runnable",
  "java.lang.Iterable",
  "java.lang.AutoCloseable",
  "java.lang.CharSequence",
  "java.io.Closeable",
  "java.io.Flushable",
  "java.util.EventListener",
  "java.util.RandomAccess",
  "java.util.Collection",
  "java.util.List",
  "java.util.Set",
  "java.util.SortedSet",
  "java.util.NavigableSet",
  "java.util.Map",
  "java.util.SortedMap",
  "java.util.NavigableMap",
  "java.util.Queue",
  "java.util.Deque",
  "java.util.Iterator",
  "java.util.AbstractCollection",
  "java.util.AbstractList",
  "java.util.AbstractSequentialList",
  "java.util.AbstractSet",
  "java.util.AbstractMap",
  "java.util.concurrent.Callable",
  "java.util.concurrent.Future",
  "java.util.concurrent.ConcurrentMap",
  "java.util.function.Function",
  "java.util.function.BiFunction",
  "java.util.function.Supplier",
  "java.util.function.Consumer",
  "java.util.function.Predicate"]

def platformTable : List (String × List String) := [
  ("java.lang.Throwable", [defaultSerializable]),
  ("java.lang.Exception", ["java.lang.Throwable"]),
  ("java.lang.Error", ["java.lang.Throwable"]),
  ("java.lang.RuntimeException", ["java.lang.Exception"]),
  ("java.lang.InterruptedException", ["java.lang.Exception"]),
  ("java.lang.CloneNotSupportedException", ["java.lang.Exception"]),
  ("java.lang.IllegalStateException", ["java.lang.RuntimeException"]),
  ("java.lang.IllegalArgumentException", ["java.lang.RuntimeException"]),
  ("java.lang.UnsupportedOperationException", ["java.lang.RuntimeException"]),
  ("java.lang.ClassCastException", ["java.lang.RuntimeException"]),
  ("java.lang.NullPointerException", ["java.lang.RuntimeException"]),
  ("java.lang.ArithmeticException", ["java.lang.RuntimeException"]),
  ("java.lang.IndexOutOfBoundsException", ["java.lang.RuntimeException"]),
  ("java.util.ConcurrentModificationException", ["java.lang.RuntimeException"]),
  ("java.util.NoSuchElementException", ["java.lang.RuntimeException"]),
  ("java.util.concurrent.ExecutionException", ["java.lang.Exception"]),
  ("java.util.concurrent.TimeoutException", ["java.lang.Exception"]),
  ("java.io.IOException", ["java.lang.Exception"]),
  ("java.io.Externalizable", [defaultSerializable]),
  ("java.lang.Enum", [defaultSerializable, "java.lang.Comparable"]),
  ("java.lang.Number", [defaultSerializable]),
  ("java.util.EventObject", [defaultSerializable]),
  ("java.util.AbstractMap$SimpleEntry", ["java.util.Map$Entry", defaultSerializable]),
  ("java.util.Map$Entry", []),
  ("java.util.ArrayList", ["java.util.AbstractList", defaultSerializable]),
  ("java.util.LinkedList", ["java.util.AbstractSequentialList", defaultSerializable]),
  ("java.util.HashMap", ["java.util.AbstractMap", defaultSerializable]),
  ("java.util.LinkedHashMap", ["java.util.HashMap"]),
  ("java.util.TreeMap", ["java.util.AbstractMap", defaultSerializable]),
  ("java.util.HashSet", ["java.util.AbstractSet", defaultSerializable]),
  ("java.util.LinkedHashSet", ["java.util.HashSet"]),
  ("java.util.TreeSet", ["java.util.AbstractSet", defaultSerializable]),
  ("java.util.concurrent.ConcurrentHashMap", ["java.util.AbstractMap", defaultSerializable]),
  ("java.util.concurrent.atomic.AtomicLong", ["java.lang.Number"]),
  ("java.util.concurrent.atomic.AtomicInteger", ["java.lang.Number"]),
  ("java.util.concurrent.atomic.AtomicReference", [defaultSerializable]),
  ("java.util.concurrent.atomic.AtomicBoolean", [defaultSerializable])]

def resources : String := "modules/core/src/main/resources"

/-- The settings that hold where nothing else is said; `home` is the home directory, if one is known. -/
def defaults (home : Option String) : Settings where
  basePath := Path.join (home.getD ".") resources
  manifestPath := defaultManifestPath
  header := defaultHeader
  namespaces := defaultNamespaces
  classpath := []
  serializable := defaultSerializable
  excluded := defaultExcluded
  versionField := FieldContract.versionField
  platformTypes := ordered platformTable
  leafTypes := defaultLeafTypes
  quiet := false
  summaryFile := none

end SerialManifest.Settings
